import KernelIR.Proofs.WellFormed.Function
import Mathlib

/-!
# Well-formed modules

In a well-formed module no name is used twice, all bodies are well formed, and initializers list
live functions.  Verification accepts such a module.  Edits are described by what they leave under
each handle.
-/

namespace KernelIR

namespace Module

/-- Names are unique, bodies are well formed, and what initializers list is live. -/
structure WellFormed (m : Module) : Prop where
  symbols : m.symbols.Nodup
  funcs : ∀ id f, m.funcs.get? id = some f → f.WellFormed m
  listed : ∀ id g, m.globals.get? id = some g → ∀ id' ∈ g.listed, m.Live (.func id')

theorem WellFormed.verify {m : Module} (h : m.WellFormed) : m.verify = .ok () := by
  refine verify_eq_ok_iff_fault?.2 (fault?_eq_none_iff.2 ⟨h.symbols, fun f hf => ?_,
    fun f hf b hb i hi op hop => ?_⟩)
  · obtain ⟨id, hf⟩ := Arena.mem_values_iff.1 hf
    exact Func.checkSSA_eq_ok_iff.2 (h.funcs id f hf).checked
  · obtain ⟨id, hf⟩ := Arena.mem_values_iff.1 hf
    exact (h.funcs id f hf).live_of_mem_mentions (List.mem_flatMap.2
      ⟨b, hb, List.mem_append_left _ (List.mem_flatMap.2 ⟨i, hi, hop⟩)⟩)

theorem WellFormed.of_verify {m : Module} (hverify : m.verify = .ok ()) (hends : m.EndsLive)
    (hacyclic : ∀ f ∈ m.funcs.values, f.Acyclic) (hresolved : ∀ f ∈ m.funcs.values, f.Resolved) :
    m.WellFormed := by
  obtain ⟨hsymbols, hssa, hinstrs⟩ := fault?_eq_none_iff.1 (verify_eq_ok_iff_fault?.1 hverify)
  have hlive := forall_mentions_iff.2 ⟨hinstrs, hends⟩
  refine ⟨hsymbols, fun id f hf => ?_, fun id g hg id' hid' => ?_⟩
  · have hmem := Arena.mem_values_iff.2 ⟨id, hf⟩
    exact .of_checked (.of_checkSSA (hssa f hmem)) (hacyclic f hmem) (hresolved f hmem)
      fun op hop => hlive op (List.mem_append_left _ (List.mem_flatMap.2 ⟨f, hmem, hop⟩))
  · exact hends.initializers g (Arena.mem_values_iff.2 ⟨id, hg⟩) id' hid'

variable {m m' : Module} {id : FuncId} {f g : Func}

theorem live_mono (hfuncs : ∀ id, m.funcs.contains id = true → m'.funcs.contains id = true)
    (hglobals : ∀ id, m.globals.contains id = true → m'.globals.contains id = true) :
    ∀ op, m.Live op → m'.Live op := by
  intro op hop
  cases op with
  | func id => exact hfuncs id hop
  | global id => exact hglobals id hop
  | _ => trivial

theorem Updated.live (h : m.Updated id f m') (hg : m.funcs.get? id = some g) :
    ∀ op, m.Live op → m'.Live op :=
  live_mono (fun id' hid' => by rwa [h.contains_iff hg]) fun _ hid => by rwa [h.globals]

/-- A function may be replaced by a well-formed one as long as names stay distinct. -/
theorem WellFormed.updated_of_nodup (h : m.WellFormed) (hu : m.Updated id f m')
    (hg : m.funcs.get? id = some g) (hnodup : m'.symbols.Nodup) (hf : f.WellFormed m) :
    m'.WellFormed := by
  have hlive := hu.live hg
  refine ⟨hnodup, fun id' f' hf' => ?_, fun gid g' hg' id' hid' => ?_⟩
  · rcases hu.get?_eq_some_iff.1 hf' with ⟨-, rfl⟩ | ⟨-, hf'⟩
    · exact hf.mono fun op _ => hlive op
    · exact (h.funcs id' f' hf').mono fun op _ => hlive op
  · rw [hu.globals] at hg'
    exact hlive _ (h.listed gid g' hg' id' hid')

theorem WellFormed.updated (h : m.WellFormed) (hu : m.Updated id f m')
    (hg : m.funcs.get? id = some g) (hname : g.name = f.name ∨ m.isTaken f.name = false)
    (hf : f.WellFormed m) : m'.WellFormed :=
  h.updated_of_nodup hu hg (hu.nodup_symbols h.symbols hg hname) hf

/-- What is under each handle may change as long as names stay. -/
theorem WellFormed.of_map (h : m.WellFormed) (k : FuncId → Func → Func) (k' : Global → Global)
    (hfuncs : ∀ id, m'.funcs.get? id = (m.funcs.get? id).map (k id))
    (hglobals : ∀ id, m'.globals.get? id = (m.globals.get? id).map k')
    (hname : ∀ id f, (k id f).name = f.name) (hname' : ∀ g, (k' g).name = g.name)
    (hlisted : ∀ g, (∀ id ∈ g.listed, m.Live (.func id)) →
      ∀ id ∈ (k' g).listed, m.Live (.func id))
    (hwf : ∀ id f, f.WellFormed m → (k id f).WellFormed m) : m'.WellFormed := by
  have hlive : ∀ op, m.Live op → m'.Live op :=
    live_mono (fun id hid => by simpa [hfuncs, Arena.contains] using hid)
      fun id hid => by simpa [hglobals, Arena.contains] using hid
  have hget : ∀ id f', m'.funcs.get? id = some f' → ∃ f, m.funcs.get? id = some f ∧ k id f = f' :=
    fun id f' hf' => Option.map_eq_some_iff.1 (hfuncs id ▸ hf')
  have hget' : ∀ id g', m'.globals.get? id = some g' →
      ∃ g, m.globals.get? id = some g ∧ k' g = g' :=
    fun id g' hg' => Option.map_eq_some_iff.1 (hglobals id ▸ hg')
  refine ⟨nodup_symbols_of_names h.symbols (fun id f' hf' => ?_) fun id g' hg' => ?_,
    fun id f' hf' => ?_, fun id g' hg' id' hid' => ?_⟩
  · obtain ⟨f, hf, rfl⟩ := hget id f' hf'
    exact ⟨f, hf, (hname id f).symm⟩
  · obtain ⟨g, hg, rfl⟩ := hget' id g' hg'
    exact ⟨g, hg, (hname' g).symm⟩
  · obtain ⟨f, hf, rfl⟩ := hget id f' hf'
    exact (hwf id f (h.funcs id f hf)).mono fun op _ => hlive op
  · obtain ⟨g, hg, rfl⟩ := hget' id g' hg'
    exact hlive _ (hlisted g (h.listed id g hg) id' hid')

theorem WellFormed.mapFuncs (h : m.WellFormed) {k : Func → Func}
    (hname : ∀ f, (k f).name = f.name) (hwf : ∀ f, f.WellFormed m → (k f).WellFormed m) :
    (m.mapFuncs k).WellFormed :=
  h.of_map (fun _ => k) id (fun _ => Arena.get?_map _ _ _) (fun _ => Option.map_id_apply.symm)
    (fun _ => hname) (fun _ => rfl) (fun _ hg => hg) fun _ => hwf

theorem WellFormed.modifyFunc (h : m.WellFormed) {k : Func → Func} (id : FuncId)
    (hname : ∀ f, (k f).name = f.name) (hwf : ∀ f, f.WellFormed m → (k f).WellFormed m) :
    (m.modifyFunc id k).WellFormed := by
  refine h.of_map (fun id' f => if id' = id then k f else f) (fun g => g) (fun id' => ?_)
    (fun _ => Option.map_id_apply.symm) (fun id' f => ?_) (fun _ => rfl) (fun _ hg => hg)
    fun id' f hf => ?_
  · by_cases hid : id' = id
    · subst hid
      simp [Module.modifyFunc]
    · simp [Module.modifyFunc, hid, Arena.get?_modify_of_ne _ hid]
  · split_ifs
    · exact hname f
    · rfl
  · split_ifs
    · exact hwf f hf
    · exact hf

/-- What is neither function nor global does not matter. -/
theorem WellFormed.congr (h : m.WellFormed) (hfuncs : m'.funcs = m.funcs)
    (hglobals : m'.globals = m.globals) : m'.WellFormed :=
  h.of_map (fun _ => id) id (fun _ => by rw [hfuncs, Option.map_id_apply])
    (fun _ => by rw [hglobals, Option.map_id_apply]) (fun _ _ => rfl) (fun _ => rfl)
    (fun _ hg => hg) fun _ _ hf => hf

/-- References may be redirected to functions that are there. -/
theorem WellFormed.redirect (h : m.WellFormed) {k : FuncId → FuncId}
    (hk : ∀ id, m.funcs.contains id = true → m.funcs.contains (k id) = true) :
    (m.redirect k).WellFormed := by
  refine h.of_map _ _ (fun _ => Arena.get?_map _ _ _) (fun _ => Arena.get?_map _ _ _)
    (fun _ _ => rfl) (fun g => g.name_mapFuncs k) (fun g hg id hid => ?_)
    fun _ f hf => hf.mapFuncs fun op hop => ?_
  · rw [Global.listed_mapFuncs] at hid
    obtain ⟨id₀, hid₀, rfl⟩ := List.mem_map.1 hid
    exact hk id₀ (hg id₀ hid₀)
  · cases op with
    | func id => exact hk id hop
    | _ => exact hop

/-- A function to which nothing refers may go. -/
theorem WellFormed.erase (h : m.WellFormed) (hid : .func id ∉ m.mentions) :
    ({ m with funcs := m.funcs.erase id } : Module).WellFormed := by
  have hget : ∀ id' f, (m.funcs.erase id).get? id' = some f → m.funcs.get? id' = some f := by
    intro id' f hf
    by_cases heq : id' = id
    · rw [heq, Arena.get?_erase_self] at hf
      cases hf
    · rwa [Arena.get?_erase_of_ne _ heq] at hf
  have hlive : ∀ op ∈ m.mentions, m.Live op →
      ({ m with funcs := m.funcs.erase id } : Module).Live op := by
    intro op hmem hop
    cases op with
    | func id' =>
        have hne : id' ≠ id := fun heq => hid (heq ▸ hmem)
        simpa [Live, Arena.contains, Arena.get?_erase_of_ne _ hne] using hop
    | _ => exact hop
  refine ⟨nodup_symbols_of_names h.symbols (fun id' f hf => ⟨f, hget id' f hf, rfl⟩)
    fun _ g hg => ⟨g, hg, rfl⟩, fun id' f hf => ?_, fun gid g hg id' hid' => ?_⟩
  · exact (h.funcs id' f (hget id' f hf)).mono fun op hop => hlive op (List.mem_append_left _
      (List.mem_flatMap.2 ⟨f, Arena.mem_values_iff.2 ⟨id', hget id' f hf⟩, hop⟩))
  · refine hlive _ (List.mem_append_right _ (List.mem_flatMap.2
      ⟨g, Arena.mem_values_iff.2 ⟨gid, hg⟩, List.mem_map_of_mem hid'⟩)) (h.listed gid g hg id' hid')

end Module

end KernelIR
