import KernelIR.Proofs.Body
import KernelIR.Proofs.Naming.Params
import KernelIR.Proofs.References
import KernelIR.Proofs.Stages
import Mathlib

/-!
# Steps that name functions

What each step of the naming stages leaves under each handle when it succeeds.
-/

namespace KernelIR

namespace Func

/-- The types that prototypes are compared by. -/
def prototype (f : Func) : Ty × List Ty := (f.retTy, f.params.map (·.ty))

theorem samePrototype_iff {f g : Func} : f.samePrototype g = true ↔ f.prototype = g.prototype := by
  simp [samePrototype, prototype]

end Func

namespace Module

variable {m m' m'' : Module} {id : FuncId} {f g h : Func}

/-- `f` became `g`, which has its prototype, and names are still distinct. -/
structure Redefined (m : Module) (id : FuncId) (f g : Func) (m' : Module) : Prop where
  before : m.funcs.get? id = some f
  updated : m.Updated id g m'
  prototype : g.prototype = f.prototype
  nodup : m.symbols.Nodup → m'.symbols.Nodup

theorem Redefined.of_updated (hf : m.funcs.get? id = some f) (hu : m.Updated id g m')
    (hprototype : g.prototype = f.prototype) (hname : f.name = g.name ∨ m.isTaken g.name = false) :
    m.Redefined id f g m' :=
  ⟨hf, hu, hprototype, fun hm => hu.nodup_symbols hm hf hname⟩

theorem Redefined.trans (hr : m.Redefined id f g m') (hr' : m'.Redefined id g h m'') :
    m.Redefined id f h m'' :=
  ⟨hr.before, hr.updated.trans hr'.updated, hr'.prototype.trans hr.prototype,
    fun hm => hr'.nodup (hr.nodup hm)⟩

/-- The redefined function is the one that the next step finds. -/
theorem Redefined.get?_eq (hr : m.Redefined id f g m') (hh : m'.funcs.get? id = some h) : g = h :=
  Option.some.inj (hr.updated.self.symm.trans hh)

theorem renameFunc_redefined {name : String} (h : m.renameFunc id name = .ok m') :
    ∃ f, m.Redefined id f { f with name } m' := by
  obtain ⟨f, hf, hu, hname⟩ := renameFunc_eq_ok h
  exact ⟨f, .of_updated hf hu rfl hname⟩

theorem attachWorkGroupSize_eq_ok {d : Demangler} {sized : Bool}
    (ha : m.attachWorkGroupSize id d = .ok (sized, m')) :
    ∃ f metadata, m.Redefined id f { f with metadata } m' := by
  rw [attachWorkGroupSize] at ha
  split at ha
  · cases ha
  · next f hf =>
      split at ha
      · cases ha
      · cases ha
        exact ⟨f, f.metadata, .of_updated hf (updated_self hf) rfl (Or.inl rfl)⟩
      · next size _ =>
          cases ha
          have hu := updated_modifyFunc hf fun f =>
            { f with metadata := f.metadata.insert WorkGroupSize.metadataKey size.node }
          exact ⟨f, _, .of_updated hf hu rfl (Or.inl rfl)⟩

/-- The name is made from the old one, unless that was made already. -/
theorem setKernelName_eq_ok {r : Option String} (hs : m.setKernelName id = .ok (r, m')) :
    ∃ f name, m.Redefined id f { f with name } m' ∧ (name = KernelName.synthesize f.name ∨
      KernelName.isSynthesized f.name = true ∧ name = f.name) := by
  rw [setKernelName] at hs
  split at hs
  · cases hs
  · next f hf =>
      split_ifs at hs with hsynthesized
      · cases hs
        exact ⟨f, f.name, .of_updated hf (updated_self hf) rfl (Or.inl rfl),
          Or.inr ⟨hsynthesized, rfl⟩⟩
      · dsimp only at hs
        split at hs
        · cases hs
        · split at hs
          · cases hs
          · next hrename =>
              cases hs
              obtain ⟨f', hr⟩ := renameFunc_redefined hrename
              obtain rfl : f = f' := Option.some.inj (hf.symm.trans hr.before)
              exact ⟨f, _, hr, Or.inl rfl⟩

/-- What binding a declaration does: its name is normalized already, it gets the normalized name, or
it is replaced by a function that has it. -/
inductive Binds (m : Module) (id : FuncId) : Module → Prop
  | keep {f : Func} (hf : m.funcs.get? id = some f)
      (hname : MangledName.normalize f.name = .ok f.name) : Binds m id m
  | rename {f : Func} {name : String} {m' : Module} (hf : m.funcs.get? id = some f)
      (hname : MangledName.normalize f.name = .ok name) (hne : name ≠ f.name)
      (hr : m.renameFunc id name = .ok m') : Binds m id m'
  | merge {f g r : Func} {new : FuncId} {m' : Module} (hf : m.funcs.get? id = some f)
      (hname : MangledName.normalize f.name = .ok g.name) (hne : g.name ≠ f.name)
      (hg : m.funcs.get? new = some g) (hprototype : g.prototype = f.prototype)
      (hr : m.replaceFunc id new = .ok (r, m')) : Binds m id m'

theorem bindDeclaration_eq_ok {r : Option String} (hb : m.bindDeclaration id = .ok (r, m')) :
    Binds m id m' := by
  rw [bindDeclaration] at hb
  split at hb
  · cases hb
  · next f hf =>
      split at hb
      · cases hb
      · next name hname =>
          split_ifs at hb with hkeep
          · cases hb
            exact .keep hf (hkeep ▸ hname)
          · split at hb
            · split at hb
              · cases hb
              · next hr =>
                  cases hb
                  exact .rename hf hname hkeep hr
            · next new hnew =>
                split at hb
                · cases hb
                · next g hg =>
                    split_ifs at hb with hprototype
                    split at hb
                    · cases hb
                    · next hr =>
                        cases hb
                        obtain ⟨g', hg', rfl⟩ := findFunc?_eq_some hnew
                        obtain rfl : g = g' := Option.some.inj (hg.symm.trans hg')
                        exact .merge hf hname hkeep hg (Func.samePrototype_iff.1 hprototype) hr

end Module

namespace ModuleM

variable {m m' : Module} {id : FuncId} {f : Func}

theorem nameParams_eq_ok {n : Nat} (h : (Pipeline.nameParams id).apply m = (.ok n, m')) :
    ∃ f, m.Redefined id f f.nameParams.2 m' := by
  rw [Pipeline.nameParams] at h
  obtain ⟨f, _, hfunc, h⟩ := bind_eq_ok h
  obtain ⟨hf, rfl⟩ := func_eq_ok hfunc
  cases h
  refine ⟨f, .of_updated hf (Module.updated_setFunc hf _) ?_ (Or.inl rfl)⟩
  exact congrArg (f.retTy, ·) (Param.map_ty_nameAll 0 f.params)

/-- A device function gets a number that was not handed out. -/
theorem rename_eq_ok {namer namer' : DeviceNamer} {name : String}
    (h : (namer.rename id).apply m = (.ok (name, namer'), m')) :
    ∃ f n, m.Redefined id f { f with name := DeviceNamer.name n } m' ∧ namer.counter ≤ n ∧
      namer'.counter = n + 1 := by
  rw [DeviceNamer.rename, DeviceNamer.next] at h
  obtain ⟨_, m₁, hnext, h⟩ := bind_eq_ok h
  obtain ⟨f, m₂, hfunc, hnext⟩ := bind_eq_ok hnext
  obtain ⟨hf, rfl⟩ := func_eq_ok hfunc
  cases hnext
  obtain ⟨_, m₃, hedit, h⟩ := bind_eq_ok h
  obtain ⟨m₄, hrename, heq⟩ := map_eq_ok (edit_eq_ok hedit)
  cases heq
  cases h
  obtain ⟨f', hr⟩ := Module.renameFunc_redefined (lift_eq_ok hrename)
  obtain rfl : f = f' := Option.some.inj (hf.symm.trans hr.before)
  exact ⟨f, _, hr, Nat.le_add_right _ _, rfl⟩

theorem keeps_collapseCast (f : Func) (r : Reg) :
    Keeps (fun m' => ∃ body, m.Redefined id f { f with body } m') (collapseCast id r) := by
  refine Triple.func_bind fun m₁ g ⟨body, hr⟩ hg => ?_
  have hset : ∀ g', g' = { g with body := g'.body } →
      ∃ body, m.Redefined id f { f with body } (m₁.setFunc id g') := by
    intro g' hg'
    obtain rfl := hr.get?_eq hg
    refine ⟨g'.body, hr.trans (.of_updated hg ?_ rfl (Or.inl rfl))⟩
    exact hg' ▸ Module.updated_setFunc hg g'
  split
  · exact Triple.pure fun _ hm => hm ▸ ⟨body, hr⟩
  · split
    · exact Triple.throw _
    · next hremove =>
        refine Triple.change fun _ hm => hm ▸ hset _ ?_
        rw [Func.removeInstr_eq_body hremove]
        rfl
    · next hremove =>
        exact Triple.change fun _ hm => hm ▸ hset _ (Func.removeInstr_eq_body hremove)

/-- Collapsing casts changes the body alone. -/
theorem collapseGenericCasts_eq_ok {n : Nat} (hf : m.funcs.get? id = some f)
    (h : (collapseGenericCasts id).apply m = (.ok n, m')) :
    ∃ body, m.Redefined id f { f with body } m' := by
  have hkeeps : Keeps (fun m' => ∃ body, m.Redefined id f { f with body } m')
      (collapseGenericCasts id) := by
    refine Triple.keeps_get.bind fun _ => ?_
    split
    · exact Triple.pure fun _ hm => hm
    · exact (Triple.keeps_func id).bind fun g =>
        Triple.sumOver (I := fun _ m' => ∃ body, m.Redefined id f { f with body } m')
          (fun r _ => keeps_collapseCast f r) _
  exact hkeeps m n m' ⟨f.body, .of_updated hf (Module.updated_self hf) rfl (Or.inl rfl)⟩ h

end ModuleM

end KernelIR
