import KernelIR.Proofs.Naming.Steps
import KernelIR.Proofs.WellFormed.Function
import KernelIR.Proofs.Wrapper.Unwrapped
import Mathlib

/-!
# Conventions of merged declarations

Merging a declaration redirects the calls to it and leaves their conventions alone.  The function
that they go to is found by its name and prototype, so that a call keeps the convention of its
callee only if the two happen to have the same.
-/

namespace KernelIR

/-- The call with all its references redirected. -/
def Call.mapFuncs (k : FuncId → FuncId) (c : Call) : Call :=
  { c with
    callee := (c.callee.mapTarget k).mapOperands (.mapFunc k)
    args := c.args.map (.mapFunc k) }

theorem Instr.call?_mapFuncs (k : FuncId → FuncId) (i : Instr) :
    (i.mapFuncs k).call? = i.call?.map (Call.mapFuncs k) := by
  cases i <;> rfl

namespace Call

variable (h k : FuncId → FuncId) (c : Call)

theorem resolve?_mapFuncs : (c.mapFuncs k).callee.resolve? = c.callee.resolve?.map k := by
  obtain ⟨c₀, heq, hresolve⟩ := Instr.exists_of_mapFuncs_eq_call k (.call c) (c := c.mapFuncs k) rfl
  cases heq
  exact hresolve

@[simp] theorem mapFuncs_id : c.mapFuncs (fun id => id) = c := by
  have hop : Operand.mapFunc (fun id => id) = id := funext Operand.mapFunc_id
  rcases c with ⟨dest, ty, callee, args, conv⟩
  cases callee <;> simp [mapFuncs, hop, Callee.mapTarget, Callee.mapOperands]

@[simp] theorem mapFuncs_mapFuncs : (c.mapFuncs k).mapFuncs h = c.mapFuncs (h ∘ k) := by
  have hop : Operand.mapFunc h ∘ Operand.mapFunc k = Operand.mapFunc (h ∘ k) :=
    funext (Operand.mapFunc_mapFunc h k)
  rcases c with ⟨dest, ty, callee, args, conv⟩
  cases callee <;>
    simp [mapFuncs, hop, Callee.mapTarget, Callee.mapOperands, Operand.mapFunc_mapFunc]

end Call

theorem Func.calls_mapFuncs (k : FuncId → FuncId) (f : Func) :
    (f.mapBlocks (Block.mapFuncs k)).calls = f.calls.map fun e => (e.1, e.2.mapFuncs k) :=
  f.calls_mapBlocks (fun _ => rfl) (Instr.call?_mapFuncs k)

namespace Module

/-- Each call of a function that is there has the convention of that function. -/
def ConvsMatch (m : Module) : Prop :=
  ∀ caller f, m.funcs.get? caller = some f → ∀ e ∈ f.calls, ∀ callee,
    e.2.callee.resolve? = some callee → ∀ g, m.funcs.get? callee = some g → e.2.conv = g.conv

instance (m : Module) : Decidable m.ConvsMatch :=
  decidable_of_iff (∀ e ∈ m.funcs.entries, ∀ c ∈ e.2.calls, ∀ callee ∈ c.2.callee.resolve?,
    ∀ g ∈ m.funcs.get? callee, c.2.conv = g.conv) (by
      simp only [Prod.forall, Arena.mem_entries_iff, Option.mem_def, ConvsMatch])

/-- The convention of a function, if it is there. -/
def conv? (m : Module) (id : FuncId) : Option CallConv := (m.funcs.get? id).map (·.conv)

/-- What is left of the functions of `m` when some of `ids` were merged into others.  Calls are
redirected by `ρ`, from what is gone to functions with the same prototype. -/
structure Redirected (m : Module) (ids : List FuncId) (ρ : FuncId → FuncId) (m' : Module) :
    Prop where
  moved : ∀ id, ρ id ≠ id → id ∈ ids
  dead : ∀ id, m.funcs.get? id = none → ρ id = id ∧ m'.funcs.get? id = none
  live : ∀ id f, m.funcs.get? id = some f →
    ∃ g, m'.funcs.get? (ρ id) = some g ∧ g.prototype = f.prototype
  left : ∀ id g, m'.funcs.get? id = some g → ρ id = id ∧ ∃ f, m.funcs.get? id = some f ∧
    g.conv = f.conv ∧ g.calls = f.calls.map fun e => (e.1, e.2.mapFuncs ρ)

variable {m m₁ m' : Module} {ids : List FuncId} {ρ σ : FuncId → FuncId} {id new : FuncId}
  {f g : Func}

theorem Redirected.refl (m : Module) (ids : List FuncId) : m.Redirected ids (fun id => id) m where
  moved _ h := absurd rfl h
  dead _ h := ⟨rfl, h⟩
  live _ f h := ⟨f, h, rfl⟩
  left _ f h := ⟨rfl, f, h, rfl, by simp⟩

theorem Redirected.trans (h : m.Redirected ids ρ m₁) (h' : m₁.Redirected ids σ m') :
    m.Redirected ids (σ ∘ ρ) m' where
  moved id hid := by
    by_cases hρ : ρ id = id
    · refine h'.moved id ?_
      rwa [Function.comp_apply, hρ] at hid
    · exact h.moved id hρ
  dead id hid := by
    obtain ⟨hρ, hid⟩ := h.dead id hid
    rw [Function.comp_apply, hρ]
    exact h'.dead id hid
  live id f hf := by
    obtain ⟨g, hg, hprototype⟩ := h.live id f hf
    obtain ⟨g', hg', hprototype'⟩ := h'.live _ g hg
    exact ⟨g', hg', hprototype'.trans hprototype⟩
  left id g hg := by
    obtain ⟨hσ, f₁, hf₁, hconv₁, hcalls₁⟩ := h'.left id g hg
    obtain ⟨hρ, f, hf, hconv, hcalls⟩ := h.left id f₁ hf₁
    refine ⟨by rw [Function.comp_apply, hρ, hσ], f, hf, hconv₁.trans hconv, ?_⟩
    simp [hcalls₁, hcalls]

theorem redirected_of_updated (hf : m.funcs.get? id = some f) (hu : m.Updated id g m')
    (hprototype : g.prototype = f.prototype) (hconv : g.conv = f.conv)
    (hcalls : g.calls = f.calls) : m.Redirected ids (fun id => id) m' where
  moved _ h := absurd rfl h
  dead id' hid' := by
    have hne : id' ≠ id := by
      rintro rfl
      rw [hf] at hid'
      cases hid'
    exact ⟨rfl, (hu.other id' hne).trans hid'⟩
  live id' f' hf' := by
    by_cases hid : id' = id
    · subst hid
      obtain rfl : f = f' := Option.some.inj (hf.symm.trans hf')
      exact ⟨g, hu.self, hprototype⟩
    · exact ⟨f', (hu.other id' hid).trans hf', rfl⟩
  left id' g' hg' := by
    rcases hu.get?_eq_some_iff.1 hg' with ⟨rfl, rfl⟩ | ⟨-, hf'⟩
    · exact ⟨rfl, f, hf, hconv, by simp [hcalls]⟩
    · exact ⟨rfl, g', hf', rfl, by simp⟩

theorem redirected_of_replaced (hid : id ∈ ids) (hf : m.funcs.get? id = some f)
    (hg : m.funcs.get? new = some g) (hne : new ≠ id) (hprototype : g.prototype = f.prototype)
    (hr : m.Replaced id new m') : m.Redirected ids (sendTo id new) m' where
  moved id' h := by
    have heq : id' = id := by
      by_contra hne'
      exact h (if_neg hne')
    exact heq ▸ hid
  dead id' hid' := by
    have hne' : id' ≠ id := by
      rintro rfl
      rw [hf] at hid'
      cases hid'
    exact ⟨if_neg hne', by rw [hr.other id' hne', hid']; rfl⟩
  live id' f' hf' := by
    by_cases heq : id' = id
    · subst heq
      obtain rfl : f = f' := Option.some.inj (hf.symm.trans hf')
      refine ⟨g.mapBlocks (Block.mapFuncs (sendTo id' new)), ?_, hprototype⟩
      rw [sendTo, if_pos rfl, hr.other new hne, hg]
      rfl
    · refine ⟨f'.mapBlocks (Block.mapFuncs (sendTo id new)), ?_, rfl⟩
      rw [sendTo, if_neg heq, hr.other id' heq, hf']
      rfl
  left id' g' hg' := by
    have hne' : id' ≠ id := by
      rintro rfl
      rw [hr.gone] at hg'
      cases hg'
    obtain ⟨f', hf', rfl⟩ := Option.map_eq_some_iff.1 ((hr.other id' hne').symm.trans hg')
    exact ⟨if_neg hne', f', hf', rfl, f'.calls_mapFuncs _⟩

theorem Binds.redirected (hid : id ∈ ids) (hb : m.Binds id m') : ∃ ρ, m.Redirected ids ρ m' := by
  cases hb with
  | keep => exact ⟨_, .refl m ids⟩
  | rename hf hname hne hr =>
      obtain ⟨f, hf, hu, -⟩ := renameFunc_eq_ok hr
      exact ⟨_, redirected_of_updated hf hu rfl rfl rfl⟩
  | merge hf hname hne hg hprototype hr =>
      refine ⟨_, redirected_of_replaced hid hf hg ?_ hprototype (replaced_of_replaceFunc hr)⟩
      rintro rfl
      exact hne (congrArg Func.name (Option.some.inj (hg.symm.trans hf)))

/-- Calls still match exactly if none was redirected to a function of another convention. -/
theorem Redirected.convsMatch_iff (h : m.Redirected ids ρ m') (hm : m.ConvsMatch) :
    m'.ConvsMatch ↔ ∀ caller callee, (m'.funcs.get? caller).isSome = true →
      m.Calls caller callee → m.conv? (ρ callee) = m.conv? callee := by
  constructor
  · rintro hm' caller callee hlive ⟨f, hf, ⟨e, he, hres⟩, hcallee⟩
    obtain ⟨f', hf'⟩ := Option.isSome_iff_exists.1 hlive
    obtain ⟨-, f₀, hf₀, -, hcalls⟩ := h.left caller f' hf'
    obtain rfl : f = f₀ := Option.some.inj (hf.symm.trans hf₀)
    obtain ⟨g, hg⟩ := Option.isSome_iff_exists.1 hcallee
    obtain ⟨g', hg', -⟩ := h.live callee g hg
    obtain ⟨-, g₀, hg₀, hconv, -⟩ := h.left _ g' hg'
    have hmem : (e.1, e.2.mapFuncs ρ) ∈ f'.calls := hcalls ▸ List.mem_map_of_mem he
    have hres' : (e.2.mapFuncs ρ).callee.resolve? = some (ρ callee) := by
      rw [Call.resolve?_mapFuncs, hres]
      rfl
    have hcall : e.2.conv = g'.conv := hm' caller f' hf' _ hmem _ hres' g' hg'
    rw [conv?, conv?, hg, hg₀, Option.map_some, Option.map_some, ← hconv, ← hcall,
      hm caller f hf e he callee hres g hg]
  · intro hagree caller f' hf' e' he' callee' hres' g' hg'
    obtain ⟨-, f, hf, -, hcalls⟩ := h.left caller f' hf'
    rw [hcalls] at he'
    obtain ⟨e, he, rfl⟩ := List.mem_map.1 he'
    rw [Call.resolve?_mapFuncs] at hres'
    obtain ⟨callee, hres, rfl⟩ := Option.map_eq_some_iff.1 hres'
    obtain ⟨-, g₀, hg₀, hconv, -⟩ := h.left _ g' hg'
    cases hg : m.funcs.get? callee with
    | none =>
        obtain ⟨hρ, hdead⟩ := h.dead callee hg
        rw [hρ, hdead] at hg'
        cases hg'
    | some g =>
        have heq := hagree caller callee (by rw [hf']; rfl)
          ⟨f, hf, ⟨e, he, hres⟩, by rw [hg]; rfl⟩
        rw [conv?, conv?, hg, hg₀, Option.map_some, Option.map_some] at heq
        exact (hm caller f hf e he callee hres g hg).trans
          ((Option.some.inj heq).symm.trans hconv.symm)

end Module

namespace ModuleM

variable {m m' : Module} {ids : List FuncId} {n : Nat}

theorem redirected_of_bindDeclarations (h : (bindDeclarations ids).apply m = (.ok n, m')) :
    ∃ ρ, m.Redirected ids ρ m' := by
  let I (rest : List FuncId) (m₁ : Module) : Prop := rest ⊆ ids ∧ ∃ ρ, m.Redirected ids ρ m₁
  have hbind : ∀ id rest, Triple (I (id :: rest)) (edit fun m => m.bindDeclaration id)
      fun _ => I rest := by
    intro id rest
    refine Triple.edit fun m₁ _ m₂ ⟨hrest, ρ, hm₁⟩ hb => ?_
    obtain ⟨hid, hrest⟩ := List.cons_subset.1 hrest
    obtain ⟨σ, hm₂⟩ := (Module.bindDeclaration_eq_ok hb).redirected hid
    exact ⟨hrest, _, hm₁.trans hm₂⟩
  refine And.right (Triple.sumOver (I := I) (fun id rest => (hbind id rest).bind fun r => ?_) ids
    m n m' ⟨List.Subset.refl _, _, .refl m ids⟩ h)
  cases r <;> exact Triple.pure fun _ hm => hm

/-- Calls match their callees after declarations were bound exactly if no call went to a
declaration that was merged into a function of another convention. -/
theorem bindDeclarations_convsMatch_iff (hm : m.ConvsMatch)
    (h : (bindDeclarations ids).apply m = (.ok n, m')) :
    ∃ ρ, m.Redirected ids ρ m' ∧
      (m'.ConvsMatch ↔ ∀ caller callee, (m'.funcs.get? caller).isSome = true →
        m.Calls caller callee → m.conv? (ρ callee) = m.conv? callee) := by
  obtain ⟨ρ, hρ⟩ := redirected_of_bindDeclarations h
  exact ⟨ρ, hρ, hρ.convsMatch_iff hm⟩

end ModuleM

namespace sineCall

/-- A function calls the declaration `_Z15__spirv_ocl_sinf`, and the backend library has a function
of the convention `conv` under the normalized name. -/
def module (conv : CallConv) : Module where
  funcs := .ofList [
    { name := "_Z15__spirv_ocl_sinf", params := [⟨none, .int 32⟩], retTy := .int 32,
      conv := .spirFunc },
    { name := "_Z3sinf", params := [⟨none, .int 32⟩], retTy := .int 32, conv },
    { name := "caller", params := [⟨none, .int 32⟩], retTy := .void, conv := .spirFunc,
      body := .ofList [(.entry,
        ⟨[.call ⟨none, .int 32, .direct ⟨1, 1⟩, [.arg 0], .spirFunc⟩], .ret none⟩)] }]

def merged (conv : CallConv) : Module := ((bindDeclarations [⟨1, 1⟩]).apply (module conv)).2

end sineCall

open sineCall in
theorem sineCall_convsMatch :
    (bindDeclarations [⟨1, 1⟩]).apply (module .spirFunc) = (.ok 1, merged .spirFunc) ∧
      (module .spirFunc).ConvsMatch ∧ (merged .spirFunc).funcs.get? ⟨1, 1⟩ = none ∧
      ∃ ρ, (module .spirFunc).Redirected [⟨1, 1⟩] ρ (merged .spirFunc) ∧
        ((merged .spirFunc).ConvsMatch ↔ ∀ caller callee,
          ((merged .spirFunc).funcs.get? caller).isSome = true →
            (module .spirFunc).Calls caller callee →
              (module .spirFunc).conv? (ρ callee) = (module .spirFunc).conv? callee) := by
  have hok : (bindDeclarations [⟨1, 1⟩]).apply (module .spirFunc) = (.ok 1, merged .spirFunc) :=
    Prod.ext (by decide +kernel) rfl
  have hmatch : (module .spirFunc).ConvsMatch := by decide +kernel
  exact ⟨hok, hmatch, by decide +kernel, ModuleM.bindDeclarations_convsMatch_iff hmatch hok⟩

open sineCall in
/-- The call keeps `spir_func`, and goes to a function with the C convention. -/
theorem sineCall_not_convsMatch :
    (∃ f, (module .c).funcs.get? ⟨1, 1⟩ = some f ∧ f.isDeclaration = true) ∧
      (module .c).ConvsMatch ∧
      ((bindDeclarations [⟨1, 1⟩]).apply (module .c)).1 = .ok 1 ∧ ¬(merged .c).ConvsMatch := by
  refine ⟨⟨_, rfl, rfl⟩, ?_, ?_, ?_⟩ <;> decide +kernel

end KernelIR
