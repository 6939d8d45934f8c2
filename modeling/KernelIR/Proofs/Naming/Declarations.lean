import KernelIR.Proofs.Naming.Steps
import Mathlib

/-!
# Names of declarations

Declarations are bound one after the other: each gets its normalized name or is replaced by the
function that has it.  What a declaration was replaced by keeps its name from then on, since a
normalized name is not normalized any further.
-/

namespace KernelIR

open ModuleM MangledName

/-- `g` is `f` with its references redirected. -/
structure Func.Follows (f : Func) (ρ : FuncId → FuncId) (g : Func) : Prop where
  prototype : g.prototype = f.prototype
  mentions : g.mentions = f.mentions.map (.mapFunc ρ)

namespace Func

variable {f g h : Func} {ρ k : FuncId → FuncId}

theorem Follows.trans (hfg : f.Follows ρ g) (hgh : g.Follows k h) : f.Follows (k ∘ ρ) h := by
  refine ⟨hgh.prototype.trans hfg.prototype, ?_⟩
  rw [hgh.mentions, hfg.mentions, List.map_map]
  exact List.map_congr_left fun op _ => op.mapFunc_mapFunc k ρ

theorem Follows.of_mentions_eq (hprototype : g.prototype = f.prototype)
    (hmentions : g.mentions = f.mentions) : f.Follows id g := by
  refine ⟨hprototype, hmentions.trans ?_⟩
  exact ((List.map_congr_left fun op _ => op.mapFunc_id).trans (List.map_id _)).symm

theorem follows_mapFuncs (f : Func) (k : FuncId → FuncId) :
    f.Follows k (f.mapBlocks (Block.mapFuncs k)) :=
  ⟨rfl, f.mentions_mapFuncs k⟩

end Func

namespace Module

/-- The normalized names of `ids` are not normalized any further. -/
def Normalizable (m : Module) (ids : List FuncId) : Prop :=
  ∀ id ∈ ids, ∀ f, m.funcs.get? id = some f →
    ∀ name, normalize f.name = .ok name → normalize name = .ok name

/-- What became of the functions of `m` when the declarations `ids` were bound.  References are
redirected by `ρ`, which moves the handles that are gone and no others. -/
structure Bound (m : Module) (ids : List FuncId) (ρ : FuncId → FuncId) (m' : Module) : Prop where
  fixed : ∀ id, id ∉ ids → ρ id = id
  kept : ∀ id f, m.funcs.get? id = some f → ρ id = id →
    ∃ g, m'.funcs.get? id = some g ∧ f.Follows ρ g ∧
      if id ∈ ids then normalize f.name = .ok g.name else g.name = f.name
  merged : ∀ id f, m.funcs.get? id = some f → ρ id ≠ id → m'.funcs.get? id = none ∧
    ∃ g, m'.funcs.get? (ρ id) = some g ∧ g.prototype = f.prototype ∧ normalize f.name = .ok g.name
  globals : ∀ id, m'.globals.get? id = (m.globals.get? id).map (Global.mapFuncs ρ)
  nodup : m.symbols.Nodup → m'.symbols.Nodup

theorem bound_nil (m : Module) : m.Bound [] (fun id => id) m := by
  refine ⟨fun _ _ => rfl, fun id f hf _ => ⟨f, hf, .of_mentions_eq rfl rfl, ?_⟩,
    fun id _ _ hne => absurd rfl hne, fun id => ?_, fun hm => hm⟩
  · rw [if_neg List.not_mem_nil]
  · cases m.globals.get? id with
    | none => rfl
    | some g => exact congrArg some g.mapFuncs_id.symm

section Step

variable {m m₁ m' : Module} {id new : FuncId} {ids : List FuncId} {f g : Func} {name : String}
  {ρ : FuncId → FuncId}

/-- A function that is not listed is as it was, up to its references. -/
theorem Bound.unlisted (h : m.Bound ids ρ m') (hid : id ∉ ids) (hf : m.funcs.get? id = some f) :
    ∃ g, m'.funcs.get? id = some g ∧ f.Follows ρ g ∧ g.name = f.name := by
  obtain ⟨g, hg, hfollows, hname⟩ := h.kept id f hf (h.fixed id hid)
  rw [if_neg hid] at hname
  exact ⟨g, hg, hfollows, hname⟩

/-- What another declaration was replaced by has a normalized name. -/
theorem Bound.normalize_target (h : m.Bound ids ρ m₁) (hn : m.Normalizable ids)
    (hf : m.funcs.get? id = some f) (hne : ρ id ≠ id) (hg : m₁.funcs.get? (ρ id) = some g) :
    normalize g.name = .ok g.name := by
  have hid : id ∈ ids := not_imp_comm.1 (h.fixed id) hne
  obtain ⟨-, g', hg', -, hname⟩ := h.merged id f hf hne
  obtain rfl : g' = g := Option.some.inj (hg'.symm.trans hg)
  exact hn id hid f hf _ hname

/-- The next declaration gets its normalized name, which may be its own. -/
theorem Bound.rename (h : m.Bound ids ρ m₁) (hn : m.Normalizable ids) (hid : id ∉ ids)
    (hf : m.funcs.get? id = some f) (hname : normalize g.name = .ok name)
    (hr : m₁.Redefined id g { g with name } m') : m.Bound (ids ++ [id]) ρ m' := by
  obtain ⟨hg, hu, -, hnodup⟩ := hr
  obtain ⟨g', hg', hfollows, hsame⟩ := h.unlisted hid hf
  obtain rfl : g = g' := Option.some.inj (hg.symm.trans hg')
  refine ⟨fun id' hid' => h.fixed id' fun hmem => hid' (List.mem_append_left _ hmem),
    fun id' f' hf' hρ => ?_, fun id' f' hf' hρ => ?_, fun id' => ?_,
    fun hm => hnodup (h.nodup hm)⟩
  · by_cases heq : id' = id
    · subst heq
      obtain rfl : f = f' := Option.some.inj (hf.symm.trans hf')
      refine ⟨_, hu.self, ⟨hfollows.prototype, hfollows.mentions⟩, ?_⟩
      rwa [if_pos (List.mem_append_right _ (List.mem_singleton_self _)), ← hsame]
    · obtain ⟨g', hg', hfollows', hname'⟩ := h.kept id' f' hf' hρ
      refine ⟨g', (hu.other id' heq).trans hg', hfollows', ?_⟩
      simpa only [List.mem_append, List.mem_singleton, heq, or_false] using hname'
  · obtain ⟨hgone, g', hg', hprototype, hname'⟩ := h.merged id' f' hf' hρ
    have hne : id' ≠ id := fun heq => hρ (heq ▸ h.fixed id hid)
    refine ⟨(hu.other id' hne).trans hgone, ?_⟩
    by_cases heq : ρ id' = id
    · -- The target of an earlier merge has its normalized name already.
      rw [heq] at hg' ⊢
      obtain rfl : g = g' := Option.some.inj (hg.symm.trans hg')
      have hsettled := h.normalize_target hn hf' hρ (heq.symm ▸ hg)
      obtain rfl : name = g.name := Except.ok.inj (hname.symm.trans hsettled)
      exact ⟨_, hu.self, hprototype, hname'⟩
    · exact ⟨g', (hu.other _ heq).trans hg', hprototype, hname'⟩
  · rw [hu.globals, h.globals id']

/-- The next declaration is replaced by the function that has its normalized name. -/
theorem Bound.merge (h : m.Bound ids ρ m₁) (hn : m.Normalizable ids) (hid : id ∉ ids)
    (hf : m.funcs.get? id = some f) {f₁ : Func} (hf₁ : m₁.funcs.get? id = some f₁)
    (hg : m₁.funcs.get? new = some g) (hname : normalize f₁.name = .ok g.name)
    (hne : g.name ≠ f₁.name) (hprototype : g.prototype = f₁.prototype)
    (hr : m₁.Replaced id new m') : m.Bound (ids ++ [id]) (sendTo id new ∘ ρ) m' := by
  obtain ⟨g', hg', hfollows, hsame⟩ := h.unlisted hid hf
  obtain rfl : f₁ = g' := Option.some.inj (hf₁.symm.trans hg')
  have hsend : ∀ id', id' ≠ id → sendTo id new id' = id' := fun _ hne' => if_neg hne'
  have hself : sendTo id new id = new := if_pos rfl
  have hnew : new ≠ id := by
    rintro rfl
    exact hne (congrArg Func.name (Option.some.inj (hg.symm.trans hf₁)))
  have hmapped : ∀ id' f', id' ≠ id → m₁.funcs.get? id' = some f' →
      m'.funcs.get? id' = some (f'.mapBlocks (Block.mapFuncs (sendTo id new))) := by
    intro id' f' hne' hf'
    rw [hr.other id' hne', hf']
    rfl
  -- Nothing was replaced by `id`, whose name is not normalized.
  have htarget : ∀ id' f', m.funcs.get? id' = some f' → ρ id' ≠ id' → ρ id' ≠ id := by
    intro id' f' hf' hρ heq
    have hsettled := h.normalize_target hn hf' hρ (heq.symm ▸ hf₁)
    exact hne (Except.ok.inj (hname.symm.trans hsettled))
  refine ⟨fun id' hid' => ?_, fun id' f' hf' hρ => ?_, fun id' f' hf' hρ => ?_, fun id' => ?_,
    fun hm => hr.nodup_symbols (h.nodup hm)⟩
  · rw [List.mem_append, List.mem_singleton, not_or] at hid'
    rw [Function.comp_apply, h.fixed id' hid'.1, hsend id' hid'.2]
  · have hfixed : ρ id' = id' := by
      by_contra hρ'
      rw [Function.comp_apply, hsend _ (htarget id' f' hf' hρ')] at hρ
      exact hρ' hρ
    have hne' : id' ≠ id := by
      rintro rfl
      rw [Function.comp_apply, hfixed, hself] at hρ
      exact hnew hρ
    obtain ⟨g', hg', hfollows', hname'⟩ := h.kept id' f' hf' hfixed
    refine ⟨_, hmapped id' g' hne' hg', hfollows'.trans (g'.follows_mapFuncs _), ?_⟩
    simp only [List.mem_append, List.mem_singleton, hne', or_false]
    exact hname'
  · by_cases hfixed : ρ id' = id'
    · have heq : id' = id := by
        by_contra hne'
        exact hρ (by rw [Function.comp_apply, hfixed, hsend id' hne'])
      subst heq
      obtain rfl : f = f' := Option.some.inj (hf.symm.trans hf')
      refine ⟨hr.gone, ?_⟩
      rw [Function.comp_apply, hfixed, hself]
      exact ⟨_, hmapped new g hnew hg, hprototype.trans hfollows.prototype, hsame ▸ hname⟩
    · obtain ⟨hgone, g', hg', hprototype', hname'⟩ := h.merged id' f' hf' hfixed
      have hne' : id' ≠ id := fun heq => hfixed (heq ▸ h.fixed id hid)
      have hne'' := htarget id' f' hf' hfixed
      refine ⟨by rw [hr.other id' hne', hgone]; rfl, ?_⟩
      rw [Function.comp_apply, hsend _ hne'']
      exact ⟨_, hmapped _ g' hne'' hg', hprototype', hname'⟩
  · rw [hr.globals id', h.globals id', Option.map_map]
    exact congrArg (Option.map · _) (funext fun g => g.mapFuncs_mapFuncs _ _)

theorem Bound.binds (h : m.Bound ids ρ m₁) (hn : m.Normalizable ids) (hid : id ∉ ids)
    (hf : m.funcs.get? id = some f) (hb : m₁.Binds id m') : ∃ ρ', m.Bound (ids ++ [id]) ρ' m' := by
  cases hb with
  | keep hg hname =>
      exact ⟨ρ, h.rename hn hid hf hname (.of_updated hg (updated_self hg) rfl (Or.inl rfl))⟩
  | rename hg hname _ hr =>
      obtain ⟨g', hr⟩ := renameFunc_redefined hr
      obtain rfl := Option.some.inj (hg.symm.trans hr.before)
      exact ⟨ρ, h.rename hn hid hf hname hr⟩
  | merge hf₁ hname hne hg hprototype hr =>
      exact ⟨_, h.merge hn hid hf hf₁ hg hname hne hprototype (replaced_of_replaceFunc hr)⟩

end Step

end Module

namespace ModuleM

variable {m m' : Module} {ids : List FuncId} {n : Nat}

/-- Binding declarations leaves each with its normalized name or replaced by what has it. -/
theorem bindDeclarations_eq_ok (hids : ids.Nodup)
    (hlive : ∀ id ∈ ids, ∃ f, m.funcs.get? id = some f)
    (hn : m.Normalizable ids) (h : (bindDeclarations ids).apply m = (.ok n, m')) :
    ∃ ρ, m.Bound ids ρ m' := by
  -- Before each round, the declarations that are not left are bound.
  let I (rest : List FuncId) (m₁ : Module) : Prop :=
    ∃ done ρ, done ++ rest = ids ∧ m.Bound done ρ m₁
  have hbind : ∀ id rest, Triple (I (id :: rest)) (edit fun m => m.bindDeclaration id)
      fun _ => I rest := by
    intro id rest
    refine Triple.edit fun m₁ _ m₂ ⟨done, ρ, hsplit, hbound⟩ hb => ?_
    have hmem : id ∈ ids := hsplit ▸ List.mem_append_right _ List.mem_cons_self
    have hnew : id ∉ done := by
      rw [← hsplit] at hids
      exact fun hdone => List.disjoint_of_nodup_append hids hdone List.mem_cons_self
    have hn' : m.Normalizable done :=
      fun id' hid' => hn id' (hsplit ▸ List.mem_append_left _ hid')
    obtain ⟨f, hf⟩ := hlive id hmem
    obtain ⟨ρ', hbound'⟩ := hbound.binds hn' hnew hf (Module.bindDeclaration_eq_ok hb)
    exact ⟨done ++ [id], ρ', by rw [List.append_assoc]; exact hsplit, hbound'⟩
  have hall : I [] m' := by
    refine Triple.sumOver (I := I) (fun id rest => (hbind id rest).bind fun r => ?_) ids
      m n m' ⟨[], _, rfl, m.bound_nil⟩ h
    cases r <;> exact Triple.pure fun _ hm => hm
  obtain ⟨done, ρ, hdone, hbound⟩ := hall
  obtain rfl : done = ids := (List.append_nil done).symm.trans hdone
  exact ⟨ρ, hbound⟩

end ModuleM

end KernelIR
