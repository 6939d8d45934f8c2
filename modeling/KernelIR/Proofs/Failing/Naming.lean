import KernelIR.Pipeline
import KernelIR.Proofs.Failing.Rounds
import KernelIR.Proofs.Failing.Totals
import KernelIR.Proofs.Mangling.Occurrences
import KernelIR.Proofs.Naming.Rerun
import KernelIR.Proofs.WellFormed.Casts
import Mathlib

/-!
# What naming leaves to do

Decorating a kernel leaves less of it to decorate, and a declaration that is bound loses a stem of
its name or is gone.  So neither stage takes back what it has done.
-/

namespace KernelIR

section Kernels

namespace Func

variable {d : Demangler} {f g : Func}

/-- The size that the name of a function asks for is not in its metadata. -/
def lacksSize (d : Demangler) (f : Func) : Bool :=
  match WorkGroupSize.ofDemangled f.name (d.orRaw f.name) with
  | .ok (some size) => f.metadata.find? WorkGroupSize.metadataKey != some size.node
  | _ => false

/-- How much decorating a kernel may still change.  Its name counts more than its size, since the
name that it gets may ask for a size as well. -/
def undecorated (d : Demangler) (f : Func) : Nat :=
  (if KernelName.isSynthesized f.name then 0 else 2) + (if f.lacksSize d then 1 else 0) +
    f.params.countP (fun p => !p.hasName) + f.code.length

theorem undecorated_lt_of_code (hbody : g = { f with body := g.body })
    (hlt : g.code.length < f.code.length) : g.undecorated d < f.undecorated d := by
  have hsize : g.lacksSize d = f.lacksSize d := by rw [hbody]; rfl
  have hname : g.name = f.name := by rw [hbody]
  have hparams : g.params = f.params := by rw [hbody]
  simp only [undecorated, hsize, hname, hparams]
  omega

theorem undecorated_nameParams (d : Demangler) (f : Func) :
    f.nameParams.2 = f ∨ f.nameParams.2.undecorated d < f.undecorated d := by
  by_cases h : f.params.countP (fun p => !p.hasName) = 0
  · left
    rw [nameParams, Param.nameAll_eq_self h]
  · right
    have hnone : f.nameParams.2.params.countP (fun p => !p.hasName) = 0 :=
      Param.countP_nameAll 0 f.params
    have hrest : f.nameParams.2.undecorated d + f.params.countP (fun p => !p.hasName) =
        f.undecorated d := by
      rw [undecorated, hnone]
      simp only [undecorated]
      exact Nat.add_right_comm _ _ _
    omega

end Func

namespace ModuleM

variable {d : Demangler} {m : Module}

/-- How much decorating kernels may still change. -/
def undecorated (d : Demangler) (m : Module) : Nat := m.funcs.total (Func.undecorated d)

theorem lowers_attachWorkGroupSize (id : FuncId) :
    Lowers (undecorated d) m (edit fun m => m.attachWorkGroupSize id d) := by
  refine Lowers.edit fun sized m' h => ?_
  rw [Module.attachWorkGroupSize] at h
  split at h
  · cases h
  · next f hf =>
      split at h
      · cases h
      · cases h
        exact Or.inl rfl
      · next size hsize =>
          cases h
          refine Module.modifyFunc_eq_self_or_lt hf ?_
          by_cases hnode : f.metadata.find? WorkGroupSize.metadataKey = some size.node
          · left
            rw [OrderedMap.insert_eq_self hnode]
          · right
            have hbefore : f.lacksSize d = true := by simp [Func.lacksSize, hsize, hnode]
            have hafter : Func.lacksSize d { f with
                metadata := f.metadata.insert WorkGroupSize.metadataKey size.node } = false := by
              simp [Func.lacksSize, hsize]
            simp only [Func.undecorated, hbefore, hafter]
            simp [Func.code]

theorem lowers_setKernelName (id : FuncId) :
    Lowers (undecorated d) m (edit fun m => m.setKernelName id) := by
  refine Lowers.edit fun renamed m' h => ?_
  rw [Module.setKernelName] at h
  split at h
  · cases h
  · next f hf =>
      split_ifs at h with hsynthesized
      · cases h
        exact Or.inl rfl
      · dsimp only at h
        split at h
        · cases h
        · split at h
          · cases h
          · next m₁ hrename =>
              cases h
              obtain ⟨f', hr⟩ := Module.renameFunc_redefined hrename
              obtain rfl : f = f' := Option.some.inj (hf.symm.trans hr.before)
              refine Or.inr (hr.updated.total_lt hf ?_)
              have hname : KernelName.isSynthesized (KernelName.synthesize f.name) = true :=
                KernelName.isSynthesized_iff.2 (KernelName.isHash_synthesize f.name)
              have hsize : ∀ b : Bool, (if b then 1 else 0) ≤ 1 := by decide
              rw [Func.undecorated, Func.undecorated, if_pos hname, if_neg hsynthesized]
              have := hsize (Func.lacksSize d { f with name := KernelName.synthesize f.name })
              simp only [Func.code]
              omega

theorem lowers_nameParams (id : FuncId) :
    Lowers (undecorated d) m (Pipeline.nameParams id) :=
  Lowers.func_bind fun f hf => Lowers.change
    (Module.modifyFunc_eq_self_or_lt hf (Func.undecorated_nameParams d f))

/-- A cast that is collapsed is an instruction less. -/
theorem lowers_collapseCast (id : FuncId) (r : Reg) :
    Lowers (undecorated d) m (collapseCast id r) := by
  have hset : ∀ {f g : Func}, m.funcs.get? id = some f → g = { f with body := g.body } →
      g.code.length < f.code.length →
        m.setFunc id g = m ∨ undecorated d (m.setFunc id g) < undecorated d m :=
    fun hf hbody hlt =>
      Module.modifyFunc_eq_self_or_lt hf (Or.inr (Func.undecorated_lt_of_code hbody hlt))
  refine Lowers.func_bind fun f hf => ?_
  split
  · exact Lowers.pure _
  · split
    · exact Lowers.throw _
    · next hremove =>
        have hcode := (Func.code_removeInstr hremove).1.length_eq
        refine Lowers.change (hset hf ?_ ?_)
        · rw [Func.removeInstr_eq_body hremove]
          rfl
        · rw [Func.replaceReads, Func.code_mapOperands, List.length_map, hcode]
          exact Nat.lt_succ_self _
    · next hremove =>
        have hcode := (Func.code_removeInstr hremove).1.length_eq
        refine Lowers.change (hset hf (Func.removeInstr_eq_body hremove) ?_)
        rw [hcode]
        exact Nat.lt_succ_self _

theorem lowers_collapseGenericCasts (id : FuncId) :
    Lowers (undecorated d) m (collapseGenericCasts id) := by
  refine Lowers.get_bind ?_
  split
  · exact Lowers.pure _
  · exact Lowers.func_bind fun f _ => Lowers.sumOver (fun r m => lowers_collapseCast id r) _

/-- What decorating a kernel goes through. -/
def kernelRounds (d : Demangler) (id : FuncId) : List (ModuleM Unit) :=
  [effect (edit fun m => m.attachWorkGroupSize id d), effect (edit fun m => m.setKernelName id),
    effect (Pipeline.nameParams id), effect (collapseGenericCasts id)]

theorem follows_decorateKernel (counts : PipelineCounts) (id : FuncId) :
    Follows (undecorated d) m (Pipeline.decorateKernel d counts id) (kernelRounds d id) :=
  (Follows.single (lowers_attachWorkGroupSize id)).bind fun _ _ =>
    (Follows.single (lowers_setKernelName id)).bind fun _ _ =>
      (Follows.single (lowers_nameParams id)).bind fun _ _ =>
        (Follows.single (lowers_collapseGenericCasts id)).bind fun _ _ => Follows.pure _

end ModuleM

end Kernels

section Declarations

namespace MangledName

def underscores (name : String) : Nat := name.toList.count '_'

theorem underscores_strip {stem name name' : String} (hstem : 0 < underscores stem)
    (h : strip stem name = .ok (some name')) : underscores name' < underscores name := by
  rw [strip] at h
  split at h
  · cases h
  · next o ho =>
      dsimp only at h
      split_ifs at h
      obtain ⟨htext, -, hdigits⟩ := in_of_find? ho
      obtain rfl := Option.some.inj (Except.ok.inj h)
      have hold : o.digits.count '_' = 0 :=
        List.count_eq_zero.2 fun hmem => absurd (hdigits _ hmem) (by decide)
      have hnew : ∀ n, (Nat.toDigits 10 n).count '_' = 0 := fun n =>
        List.count_eq_zero.2 fun hmem =>
          absurd (isDigit_toDigits n _ hmem) (by decide)
      have hmark : (toString "_Z").toList.count '_' = 1 := rfl
      simp only [underscores] at hstem ⊢
      rw [htext]
      simp [hold, hnew, hmark]
      omega

/-- A name is normalized, or it loses underscores. -/
theorem underscores_normalize {name name' : String} (h : normalize name = .ok name') :
    name' = name ∨ underscores name' < underscores name := by
  have hstems : ∀ stem ∈ builtinStems, 0 < underscores stem := by decide
  rw [normalize] at h
  generalize builtinStems = stems at h hstems
  induction stems generalizing name with
  | nil =>
      cases h
      exact Or.inl rfl
  | cons stem stems ih =>
      obtain ⟨hstem, hstems⟩ := List.forall_mem_cons.1 hstems
      rw [List.foldlM_cons] at h
      cases hstrip : strip stem name with
      | error e =>
          rw [hstrip] at h
          cases h
      | ok r =>
          rw [hstrip] at h
          cases r with
          | none => exact ih h hstems
          | some name₁ =>
              have hlt := underscores_strip hstem hstrip
              rcases ih h hstems with rfl | hlt'
              · exact Or.inr hlt
              · exact Or.inr (hlt'.trans hlt)

end MangledName

namespace ModuleM

variable {m m' : Module}

/-- How much binding declarations may still change: names lose underscores, and functions are
merged. -/
def unbound (m : Module) : Nat := m.funcs.total fun f => MangledName.underscores f.name + 1

theorem lowers_bindDeclaration (id : FuncId) :
    Lowers unbound m (edit fun m => m.bindDeclaration id) := by
  refine Lowers.edit fun r m' h => ?_
  cases Module.bindDeclaration_eq_ok h with
  | keep => exact Or.inl rfl
  | rename hf hname hne hr =>
      obtain ⟨f', hredefined⟩ := Module.renameFunc_redefined hr
      obtain rfl := Option.some.inj (hf.symm.trans hredefined.before)
      refine Or.inr (hredefined.updated.total_lt hf (Nat.succ_lt_succ ?_))
      exact (MangledName.underscores_normalize hname).resolve_left hne
  | @merge _ _ _ new _ _ _ _ _ _ hr =>
      obtain ⟨f, -, hf, -, -, rfl⟩ := Module.replaceFunc_eq_ok hr
      have hget := (Arena.get?_map m.funcs (Func.mapBlocks (Block.mapFuncs (Module.sendTo id new)))
        id).trans (congrArg _ hf)
      exact Or.inr ((Arena.total_erase_lt hget (Nat.succ_pos _)).trans_eq
        (Arena.total_map m.funcs _ _))

def declarationRounds (ids : List FuncId) : List (ModuleM Unit) :=
  ids.map fun id => effect (edit fun m => m.bindDeclaration id)

theorem follows_bindDeclarations (ids : List FuncId) :
    Follows unbound m (bindDeclarations ids) (declarationRounds ids) := by
  rw [declarationRounds, List.map_eq_flatMap, bindDeclarations]
  refine Follows.sumOver (r := fun _ id => [effect (edit fun m => m.bindDeclaration id)])
    (fun id m => ?_) ids
  refine (Follows.single (lowers_bindDeclaration id)).bind (l := fun _ => []) fun r m => ?_
  split
  · exact Follows.pure _
  · exact Follows.pure _

end ModuleM

end Declarations

end KernelIR
