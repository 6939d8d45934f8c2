import KernelIR.Proofs.References
import KernelIR.Proofs.Triple
import Mathlib

/-!
# Edit histories

A module that edits make of an empty one never holds the handle of a function that is gone, and
never gives two symbols one name.  Erasing is safe because the count of references misses no place
where a handle can be, and replacing because the same places are redirected.
-/

namespace KernelIR

namespace Operand

def func? : Operand → Option FuncId
  | func id => some id
  | _ => none

theorem func?_eq_some_iff {op : Operand} {id : FuncId} : op.func? = some id ↔ op = func id := by
  cases op <;> simp [func?]

end Operand

namespace Module

variable {m m' : Module} {id : FuncId} {gid : GlobalId} {f : Func} {g : Global} {op : Operand}

theorem mem_mentions_iff : op ∈ m.mentions ↔
    (∃ id f, m.funcs.get? id = some f ∧ op ∈ f.mentions) ∨
      ∃ gid g, m.globals.get? gid = some g ∧ op ∈ g.listed.map Operand.func := by
  simp only [mentions, List.mem_append, List.mem_flatMap, Arena.mem_values_iff]
  constructor
  · rintro (⟨f, ⟨id, hf⟩, hop⟩ | ⟨g, ⟨gid, hg⟩, hop⟩)
    · exact Or.inl ⟨id, f, hf, hop⟩
    · exact Or.inr ⟨gid, g, hg, hop⟩
  · rintro (⟨id, f, hf, hop⟩ | ⟨gid, g, hg, hop⟩)
    · exact Or.inl ⟨f, ⟨id, hf⟩, hop⟩
    · exact Or.inr ⟨g, ⟨gid, hg⟩, hop⟩

theorem func_mem_mentions_iff : .func id ∈ m.mentions ↔
    (∃ id' f, m.funcs.get? id' = some f ∧ .func id ∈ f.mentions) ∨
      ∃ gid g, m.globals.get? gid = some g ∧ id ∈ g.listed := by
  simp [mem_mentions_iff]

/-- A replacement that passes the checks goes through: nothing refers to `old` any more once its
references are redirected. -/
theorem exists_replaceFunc {old new : FuncId} {f' : Func} (hf : m.funcs.get? old = some f)
    (hf' : m.funcs.get? new = some f') (hprototype : f.samePrototype f' = true)
    (hne : old ≠ new) : ∃ r, m.replaceFunc old new = .ok r := by
  have hsend : ∀ id, sendTo old new id ≠ old := by
    intro id
    rw [sendTo]
    split_ifs with hid
    · exact hne.symm
    · exact hid
  have hcount : (m.redirect (sendTo old new)).refCount old = 0 := by
    apply refCount_eq_zero_iff.2
    rw [func_mem_mentions_iff]
    rintro (⟨id, g, hg, hmem⟩ | ⟨gid, g, hg, hmem⟩)
    · obtain ⟨g, -, rfl⟩ := Option.map_eq_some_iff.1 ((Arena.get?_map _ _ _).symm.trans hg)
      rw [Func.mentions_mapFuncs] at hmem
      obtain ⟨op, -, heq⟩ := List.mem_map.1 hmem
      cases op with
      | func id' => exact hsend id' (Operand.func.inj heq)
      | _ => cases heq
    · obtain ⟨g, -, rfl⟩ := Option.map_eq_some_iff.1 ((Arena.get?_map _ _ _).symm.trans hg)
      rw [Global.listed_mapFuncs] at hmem
      obtain ⟨id', -, heq⟩ := List.mem_map.1 hmem
      exact hsend id' heq
  have herase : ∃ r, (m.redirect (sendTo old new)).eraseFunc old = .ok r := by
    rw [eraseFunc, get?_redirect _ hf]
    exact ⟨_, if_pos hcount⟩
  obtain ⟨r, herase⟩ := herase
  refine ⟨r, ?_⟩
  rw [replaceFunc, hf, hf']
  exact (if_pos hprototype).trans herase

/-- No name is used twice, and every handle of a function in the module is live. -/
structure Intact (m : Module) : Prop where
  symbols : m.symbols.Nodup
  live : ∀ id, .func id ∈ m.mentions → m.funcs.contains id = true

theorem intact_of_empty (hfuncs : m.funcs = .empty) (hglobals : m.globals = .empty) :
    m.Intact := by
  have hsymbols : m.symbols = [] := by
    rw [symbols, hfuncs, hglobals]
    rfl
  refine ⟨hsymbols ▸ List.nodup_nil, ?_⟩
  intro id hid
  rcases func_mem_mentions_iff.1 hid with ⟨id', f, hf, -⟩ | ⟨gid, g, hg, -⟩
  · rw [hfuncs, Arena.get?_empty] at hf
    cases hf
  · rw [hglobals, Arena.get?_empty] at hg
    cases hg

/-- A function may be put under a handle if what it refers to is live. -/
theorem Intact.updated (h : m.Intact) (hu : m.Updated id f m') (hsymbols : m'.symbols.Nodup)
    (hf : ∀ id', .func id' ∈ f.mentions → m.funcs.contains id' = true) : m'.Intact := by
  refine ⟨hsymbols, ?_⟩
  intro id' hid'
  have hlive : m.funcs.contains id' = true := by
    rcases func_mem_mentions_iff.1 hid' with ⟨id'', f', hf', hmem⟩ | ⟨gid, g, hg, hmem⟩
    · rcases hu.get?_eq_some_iff.1 hf' with ⟨-, rfl⟩ | ⟨-, hf'⟩
      · exact hf id' hmem
      · exact h.live id' (func_mem_mentions_iff.2 (Or.inl ⟨id'', f', hf', hmem⟩))
    · rw [hu.globals] at hg
      exact h.live id' (func_mem_mentions_iff.2 (Or.inr ⟨gid, g, hg, hmem⟩))
  obtain ⟨f', hf'⟩ := Arena.contains_iff.1 hlive
  apply Arena.contains_iff.2
  by_cases heq : id' = id
  · exact ⟨f, heq ▸ hu.self⟩
  · exact ⟨f', (hu.other id' heq).trans hf'⟩

theorem addFunc_eq_ok (ha : m.addFunc f = .ok (id, m')) :
    m.funcs.get? id = none ∧ m.Updated id f m' ∧ m.isTaken f.name = false := by
  rw [addFunc] at ha
  split_ifs at ha with htaken
  simp only [Except.ok.injEq, Prod.mk.injEq] at ha
  obtain ⟨rfl, rfl⟩ := ha
  refine ⟨Arena.get?_fst_insert _ _, ⟨Arena.get?_insert_self _ _, ?_, rfl⟩, by simpa using htaken⟩
  intro id' hne
  exact Arena.get?_insert_of_ne _ _ hne

theorem nodup_symbols_addFunc (h : m.symbols.Nodup) (ha : m.addFunc f = .ok (id, m')) :
    m'.symbols.Nodup := by
  obtain ⟨-, hu, htaken⟩ := addFunc_eq_ok ha
  obtain ⟨hfree, hfree'⟩ := isTaken_eq_false_iff.1 htaken
  apply hu.nodup_symbols_of_free h
  · intro id' f' _ hf'
    exact hfree id' f' hf'
  · intro gid g hg
    exact (hfree' gid g hg).symm

theorem Intact.addFunc (h : m.Intact) (ha : m.addFunc f = .ok (id, m'))
    (hf : ∀ id', .func id' ∈ f.mentions → m.funcs.contains id' = true) : m'.Intact :=
  h.updated (addFunc_eq_ok ha).2.1 (nodup_symbols_addFunc h.symbols ha) hf

theorem addGlobal_eq_ok (ha : m.addGlobal g = .ok (gid, m')) :
    m.isTaken g.name = false ∧ m'.funcs = m.funcs ∧
      ∀ gid' g', m'.globals.get? gid' = some g' →
        gid' = gid ∧ g' = g ∨ m.globals.get? gid' = some g' := by
  rw [addGlobal] at ha
  split_ifs at ha with htaken
  simp only [Except.ok.injEq, Prod.mk.injEq] at ha
  obtain ⟨rfl, rfl⟩ := ha
  refine ⟨by simpa using htaken, rfl, ?_⟩
  intro gid' g' hg'
  by_cases heq : gid' = (m.globals.insert g).1
  · subst heq
    rw [Arena.get?_insert_self] at hg'
    exact Or.inl ⟨rfl, (Option.some.inj hg').symm⟩
  · rw [Arena.get?_insert_of_ne _ _ heq] at hg'
    exact Or.inr hg'

theorem nodup_symbols_addGlobal (h : m.symbols.Nodup) (ha : m.addGlobal g = .ok (gid, m')) :
    m'.symbols.Nodup := by
  obtain ⟨htaken, hfuncs, hglobals⟩ := addGlobal_eq_ok ha
  obtain ⟨hfree, hfree'⟩ := isTaken_eq_false_iff.1 htaken
  obtain ⟨hinj, hinj', hdisjoint⟩ := nodup_symbols_iff.1 h
  refine nodup_symbols_iff.2 ⟨?_, ?_, ?_⟩
  · rw [hfuncs]
    exact hinj
  · intro gid₁ gid₂ g₁ g₂ h₁ h₂ heq
    rcases hglobals gid₁ g₁ h₁ with ⟨rfl, rfl⟩ | h₁ <;>
      rcases hglobals gid₂ g₂ h₂ with ⟨rfl, rfl⟩ | h₂
    · rfl
    · exact absurd heq.symm (hfree' gid₂ g₂ h₂)
    · exact absurd heq (hfree' gid₁ g₁ h₁)
    · exact hinj' gid₁ gid₂ g₁ g₂ h₁ h₂ heq
  · intro id gid' f g' hf hg'
    rw [hfuncs] at hf
    rcases hglobals gid' g' hg' with ⟨rfl, rfl⟩ | hg'
    · exact hfree id f hf
    · exact hdisjoint id gid' f g' hf hg'

theorem Intact.addGlobal (h : m.Intact) (ha : m.addGlobal g = .ok (gid, m'))
    (hg : ∀ id ∈ g.listed, m.funcs.contains id = true) : m'.Intact := by
  obtain ⟨-, hfuncs, hglobals⟩ := addGlobal_eq_ok ha
  refine ⟨nodup_symbols_addGlobal h.symbols ha, ?_⟩
  intro id hid
  rw [hfuncs]
  rcases func_mem_mentions_iff.1 hid with ⟨id', f, hf, hmem⟩ | ⟨gid', g', hg', hmem⟩
  · rw [hfuncs] at hf
    exact h.live id (func_mem_mentions_iff.2 (Or.inl ⟨id', f, hf, hmem⟩))
  · rcases hglobals gid' g' hg' with ⟨rfl, rfl⟩ | hg'
    · exact hg id hmem
    · exact h.live id (func_mem_mentions_iff.2 (Or.inr ⟨gid', g', hg', hmem⟩))

theorem nodup_symbols_renameFunc {name : String} (h : m.symbols.Nodup)
    (hr : m.renameFunc id name = .ok m') : m'.symbols.Nodup := by
  obtain ⟨f, hf, hu, hname⟩ := renameFunc_eq_ok hr
  exact hu.nodup_symbols h hf hname

theorem Intact.renameFunc {name : String} (h : m.Intact) (hr : m.renameFunc id name = .ok m') :
    m'.Intact := by
  obtain ⟨f, hf, hu, -⟩ := renameFunc_eq_ok hr
  apply h.updated hu (nodup_symbols_renameFunc h.symbols hr)
  intro id' hid'
  exact h.live id' (func_mem_mentions_iff.2 (Or.inl ⟨id, f, hf, hid'⟩))

/-- References may be redirected to functions that are there. -/
theorem Intact.redirect (h : m.Intact) {k : FuncId → FuncId}
    (hk : ∀ id, m.funcs.contains id = true → m.funcs.contains (k id) = true) :
    (m.redirect k).Intact := by
  have hlive : ∀ id, .func id ∈ (m.redirect k).mentions → m.funcs.contains id = true := by
    intro id hid
    rcases func_mem_mentions_iff.1 hid with ⟨id', f', hf', hmem⟩ | ⟨gid, g', hg', hmem⟩
    · obtain ⟨f, hf, rfl⟩ := Option.map_eq_some_iff.1 ((Arena.get?_map _ _ _).symm.trans hf')
      rw [Func.mentions_mapFuncs] at hmem
      obtain ⟨op, hop, heq⟩ := List.mem_map.1 hmem
      cases op with
      | func id₀ =>
          cases heq
          exact hk id₀ (h.live id₀ (func_mem_mentions_iff.2 (Or.inl ⟨id', f, hf, hop⟩)))
      | _ => cases heq
    · obtain ⟨g, hg, rfl⟩ := Option.map_eq_some_iff.1 ((Arena.get?_map _ _ _).symm.trans hg')
      rw [Global.listed_mapFuncs] at hmem
      obtain ⟨id₀, hid₀, rfl⟩ := List.mem_map.1 hmem
      exact hk id₀ (h.live id₀ (func_mem_mentions_iff.2 (Or.inr ⟨gid, g, hg, hid₀⟩)))
  constructor
  case symbols =>
    apply nodup_symbols_of_names h.symbols
    · intro id f' hf'
      obtain ⟨f, hf, rfl⟩ := Option.map_eq_some_iff.1 ((Arena.get?_map _ _ _).symm.trans hf')
      exact ⟨f, hf, rfl⟩
    · intro gid g' hg'
      obtain ⟨g, hg, rfl⟩ := Option.map_eq_some_iff.1 ((Arena.get?_map _ _ _).symm.trans hg')
      exact ⟨g, hg, (g.name_mapFuncs k).symm⟩
  case live =>
    intro id hid
    have hcontains := hlive id hid
    simpa [Module.redirect, Arena.contains] using hcontains

theorem get?_of_erase {id' : FuncId} (hf : (m.funcs.erase id).get? id' = some f) :
    m.funcs.get? id' = some f := by
  by_cases heq : id' = id
  · rw [heq, Arena.get?_erase_self] at hf
    cases hf
  · rwa [Arena.get?_erase_of_ne _ heq] at hf

theorem nodup_symbols_erase (h : m.symbols.Nodup) :
    ({ m with funcs := m.funcs.erase id } : Module).symbols.Nodup :=
  nodup_symbols_of_names h (fun _ f hf => ⟨f, get?_of_erase hf, rfl⟩) fun _ g hg => ⟨g, hg, rfl⟩

/-- A function to which nothing refers may go. -/
theorem Intact.erase (h : m.Intact) (hid : .func id ∉ m.mentions) :
    ({ m with funcs := m.funcs.erase id } : Module).Intact := by
  refine ⟨nodup_symbols_erase h.symbols, ?_⟩
  intro id' hid'
  have hmem : .func id' ∈ m.mentions := by
    apply func_mem_mentions_iff.2
    rcases func_mem_mentions_iff.1 hid' with ⟨id'', f, hf, hop⟩ | hlisted
    · exact Or.inl ⟨id'', f, get?_of_erase hf, hop⟩
    · exact Or.inr hlisted
  have hne : id' ≠ id := fun heq => hid (heq ▸ hmem)
  simpa [Arena.contains, Arena.get?_erase_of_ne _ hne] using h.live id' hmem

theorem Intact.eraseFunc (h : m.Intact) (he : m.eraseFunc id = .ok (f, m')) : m'.Intact := by
  obtain ⟨-, hid, rfl⟩ := eraseFunc_eq_ok he
  exact h.erase hid

theorem Intact.replaceFunc {new : FuncId} (h : m.Intact)
    (hr : m.replaceFunc id new = .ok (f, m')) : m'.Intact := by
  obtain ⟨-, g, -, hg, hid, rfl⟩ := replaceFunc_eq_ok hr
  apply Intact.erase _ hid
  apply h.redirect
  intro id' hid'
  rw [sendTo]
  split_ifs
  · exact Arena.contains_iff.2 ⟨g, hg⟩
  · exact hid'

end Module

/-- A request to edit the symbols of a module. -/
inductive Edit where
  | addFunc (f : Func)
  | addGlobal (g : Global)
  | renameFunc (id : FuncId) (name : String)
  | replaceFunc (old new : FuncId)
  | eraseFunc (id : FuncId)

namespace Edit

def run (m : Module) : Edit → Except IRError Module
  | addFunc f => (m.addFunc f).map (·.2)
  | addGlobal g => (m.addGlobal g).map (·.2)
  | renameFunc id name => m.renameFunc id name
  | replaceFunc old new => (m.replaceFunc old new).map (·.2)
  | eraseFunc id => (m.eraseFunc id).map (·.2)

/-- The module after an edit; one that fails changes nothing. -/
def apply (m : Module) (e : Edit) : Module :=
  match e.run m with
  | .ok m' => m'
  | .error _ => m

/-- What is added refers only to functions that are there. -/
def Admissible (m : Module) : Edit → Prop
  | addFunc f => ∀ id, .func id ∈ f.mentions → m.funcs.contains id = true
  | addGlobal g => ∀ id ∈ g.listed, m.funcs.contains id = true
  | renameFunc .. | replaceFunc .. | eraseFunc .. => True

instance decidableAdmissible (m : Module) : (e : Edit) → Decidable (e.Admissible m)
  | addFunc f =>
    decidable_of_iff (∀ op ∈ f.mentions, ∀ id ∈ op.func?, m.funcs.contains id = true) (by
      constructor
      · exact fun h id hid => h (.func id) hid id rfl
      · rintro h op hop id hid
        obtain rfl := Operand.func?_eq_some_iff.1 hid
        exact h id hop)
  | addGlobal g => inferInstanceAs (Decidable (∀ id ∈ g.listed, m.funcs.contains id = true))
  | renameFunc .. | replaceFunc .. | eraseFunc .. => isTrue trivial

/-- Each edit is admissible when its turn comes. -/
def AllAdmissible (m : Module) : List Edit → Prop
  | [] => True
  | e :: es => e.Admissible m ∧ AllAdmissible (e.apply m) es

instance decidableAllAdmissible (m : Module) : (es : List Edit) → Decidable (AllAdmissible m es)
  | [] => isTrue trivial
  | e :: es =>
    haveI := decidableAllAdmissible (e.apply m) es
    inferInstanceAs (Decidable (e.Admissible m ∧ AllAdmissible (e.apply m) es))

/-- The modules that edits lead through, the first one included. -/
def history (m : Module) (es : List Edit) : List Module := es.scanl apply m

/-- No edit gives a name to two symbols. -/
theorem nodup_symbols_apply {m : Module} (h : m.symbols.Nodup) (e : Edit) :
    (e.apply m).symbols.Nodup := by
  rw [apply]
  split
  · next m' hrun =>
      cases e with
      | addFunc f =>
          obtain ⟨_, ha, rfl⟩ := map_eq_ok hrun
          exact Module.nodup_symbols_addFunc h ha
      | addGlobal g =>
          obtain ⟨_, ha, rfl⟩ := map_eq_ok hrun
          exact Module.nodup_symbols_addGlobal h ha
      | renameFunc id name => exact Module.nodup_symbols_renameFunc h hrun
      | replaceFunc old new =>
          obtain ⟨_, hr, rfl⟩ := map_eq_ok hrun
          exact (Module.replaced_of_replaceFunc hr).nodup_symbols h
      | eraseFunc id =>
          obtain ⟨_, he, rfl⟩ := map_eq_ok hrun
          obtain ⟨-, -, hm'⟩ := Module.eraseFunc_eq_ok he
          exact hm' ▸ Module.nodup_symbols_erase h
  · exact h

theorem intact_apply {m : Module} {e : Edit} (h : m.Intact) (he : e.Admissible m) :
    (e.apply m).Intact := by
  rw [apply]
  split
  · next m' hrun =>
      cases e with
      | addFunc f =>
          obtain ⟨_, ha, rfl⟩ := map_eq_ok hrun
          exact h.addFunc ha he
      | addGlobal g =>
          obtain ⟨_, ha, rfl⟩ := map_eq_ok hrun
          exact h.addGlobal ha he
      | renameFunc id name => exact h.renameFunc hrun
      | replaceFunc old new =>
          obtain ⟨_, hr, rfl⟩ := map_eq_ok hrun
          exact h.replaceFunc hr
      | eraseFunc id =>
          obtain ⟨_, he', rfl⟩ := map_eq_ok hrun
          exact h.eraseFunc he'
  · exact h

theorem intact_of_mem_history {m m' : Module} {es : List Edit} (h : m.Intact)
    (hes : AllAdmissible m es) (hm' : m' ∈ history m es) : m'.Intact := by
  induction es generalizing m with
  | nil =>
      obtain rfl := List.mem_singleton.1 hm'
      exact h
  | cons e es ih =>
      obtain ⟨he, hes⟩ := hes
      rw [history, List.scanl_cons] at hm'
      rcases List.mem_cons.1 hm' with rfl | hm'
      · exact h
      · exact ih (intact_apply h he) hes hm'

/-- Whatever edits are asked for, and whether they succeed or fail: if nothing that is added refers
to a function that is not there, then after each edit all names are distinct and every handle of a
function that the module holds is live. -/
theorem history_nodup_and_live {m : Module} (hfuncs : m.funcs = .empty)
    (hglobals : m.globals = .empty) {es : List Edit} (hes : AllAdmissible m es) :
    ∀ m' ∈ history m es, m'.symbols.Nodup ∧
      ∀ id, .func id ∈ m'.mentions → m'.funcs.contains id = true := by
  intro m' hm'
  obtain ⟨hsymbols, hlive⟩ :=
    intact_of_mem_history (Module.intact_of_empty hfuncs hglobals) hes hm'
  exact ⟨hsymbols, hlive⟩

namespace sineSwap

def sine (name : String) : Func where
  name := name
  params := [⟨none, .int 64⟩]
  retTy := .int 64
  conv := .spirFunc

/-- Calls a function, hands over its address, and returns it. -/
def user : Func where
  name := "user"
  params := []
  retTy := .privatePtr
  body := .ofList [(.entry,
    ⟨[.call ⟨some 0, .int 64, .cast ⟨1, 1⟩, [.func ⟨1, 1⟩], .spirFunc⟩],
      .ret (some (.func ⟨1, 1⟩))⟩)]

def table : Global where
  name := "table"
  ty := .array .privatePtr 2
  init := some (.functions [⟨1, 1⟩, ⟨2, 1⟩])

/-- One function is replaced by another, and its slot is used again.  An erasure, an addition and a
replacement fail. -/
def edits : List Edit :=
  [addFunc (sine "_Z15__spirv_ocl_sinf"), addFunc user, addGlobal table, eraseFunc ⟨1, 1⟩,
    addFunc (sine "table"), addFunc (sine "sin"), replaceFunc ⟨1, 1⟩ ⟨3, 1⟩,
    renameFunc ⟨3, 1⟩ "_Z3sinf", addFunc (sine "sin"), replaceFunc ⟨3, 1⟩ ⟨3, 1⟩,
    eraseFunc ⟨1, 3⟩]

end sineSwap

open sineSwap in
theorem sineSwap_nodup_and_live :
    AllAdmissible {} edits ∧
      (history {} edits).map Module.symbols =
        [[], ["_Z15__spirv_ocl_sinf"], ["_Z15__spirv_ocl_sinf", "user"],
          ["_Z15__spirv_ocl_sinf", "user", "table"], ["_Z15__spirv_ocl_sinf", "user", "table"],
          ["_Z15__spirv_ocl_sinf", "user", "table"],
          ["_Z15__spirv_ocl_sinf", "user", "sin", "table"], ["user", "sin", "table"],
          ["user", "_Z3sinf", "table"], ["sin", "user", "_Z3sinf", "table"],
          ["sin", "user", "_Z3sinf", "table"], ["user", "_Z3sinf", "table"]] ∧
      ∀ m' ∈ history {} edits, m'.symbols.Nodup ∧
        ∀ id, .func id ∈ m'.mentions → m'.funcs.contains id = true := by
  have hadmissible : AllAdmissible {} edits := by decide +kernel
  exact ⟨hadmissible, by decide +kernel, history_nodup_and_live rfl rfl hadmissible⟩

end Edit

end KernelIR
