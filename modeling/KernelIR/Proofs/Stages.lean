import KernelIR.Pipeline
import KernelIR.Proofs.Triple
import Mathlib

/-!
# Stages of the pipeline

A run is a preparation, the naming of definitions, the binding of declarations and the finishing
touches.  A run that succeeds goes through the four stages one after the other.
-/

namespace KernelIR

namespace Pipeline

open ModuleM

/-- The preparation, if it is configured. -/
def prepareStage (c : Config) (flow : Flow) (d : Demangler) (steps : Nat) :
    ModuleM (Option PreparationCounts) :=
  if c.runPreparation then some <$> prepare flow c.afterO3 d steps else pure none

/-- Names the kernels and then the device functions of the prepared module. -/
def definitionsStage (d : Demangler) (mode : KernelMode) (preparation : Option PreparationCounts)
    (prepared : Module) : ModuleM PipelineCounts := do
  let kernels := prepared.withRole mode .kernel
  let deviceFunctions := prepared.withRole mode .deviceFunction
  let counts ← kernels.foldlM (decorateKernel d)
    { preparation, kernels := kernels.length, deviceFunctions := deviceFunctions.length }
  let (_, counts) ← deviceFunctions.foldlM nameDeviceFunction ({}, counts)
  return counts

theorem run_eq_stages (c : Config) (d : Demangler) (steps : Nat) :
    run c d steps = (do
      let flow := c.flowFor (← get)
      let preparation ← prepareStage c flow d steps
      let prepared ← get
      let counts ← definitionsStage d flow.kernelMode preparation prepared
      let boundDeclarations ← bindDeclarations (prepared.withRole flow.kernelMode .declaration)
      finish c
      return { counts with boundDeclarations }) := by
  simp only [run, prepareStage, definitionsStage, bind_assoc, pure_bind]
  refine bind_congr fun m => ?_
  split <;> rfl

/-- A run that succeeds goes through all stages. -/
theorem run_eq_ok {c : Config} {d : Demangler} {steps : Nat} {m m' : Module}
    {counts : PipelineCounts} (h : (run c d steps).apply m = (.ok counts, m')) :
    ∃ preparation prepared counts' named bound last,
      (prepareStage c (c.flowFor m) d steps).apply m = (.ok preparation, prepared) ∧
      (definitionsStage d (c.flowFor m).kernelMode preparation prepared).apply prepared =
        (.ok counts', named) ∧
      (bindDeclarations (prepared.withRole (c.flowFor m).kernelMode .declaration)).apply named =
        (.ok bound, last) ∧
      (finish c).apply last = (.ok (), m') := by
  rw [run_eq_stages] at h
  obtain ⟨_, _, hget, h⟩ := bind_eq_ok h
  cases hget
  obtain ⟨preparation, prepared, hprepare, h⟩ := bind_eq_ok h
  obtain ⟨_, _, hget, h⟩ := bind_eq_ok h
  cases hget
  obtain ⟨counts', named, hdefinitions, h⟩ := bind_eq_ok h
  obtain ⟨bound, last, hbind, h⟩ := bind_eq_ok h
  obtain ⟨_, _, hfinish, h⟩ := bind_eq_ok h
  cases h
  exact ⟨_, _, _, _, _, _, hprepare, hdefinitions, hbind, hfinish⟩

/-- The stages that come after the preparation. -/
theorem run_eq_ok_of_prepare {c : Config} {d : Demangler} {steps : Nat} {m pre m' : Module}
    {preparation : Option PreparationCounts} {counts : PipelineCounts}
    (hprepare : (prepareStage c (c.flowFor m) d steps).apply m = (.ok preparation, pre))
    (h : (run c d steps).apply m = (.ok counts, m')) :
    ∃ counts' named bound last,
      (definitionsStage d (c.flowFor m).kernelMode preparation pre).apply pre =
        (.ok counts', named) ∧
      (bindDeclarations (pre.withRole (c.flowFor m).kernelMode .declaration)).apply named =
        (.ok bound, last) ∧
      (finish c).apply last = (.ok (), m') := by
  obtain ⟨_, _, counts', named, bound, last, hprepare', hrest⟩ := run_eq_ok h
  cases hprepare.symm.trans hprepare'
  exact ⟨counts', named, bound, last, hrest⟩

end Pipeline

namespace ModuleM

variable {P : Module → Prop}

theorem keeps_unifyConventions (hconv : ∀ id conv, Keeps P (setConv id conv)) (conv : CallConv) :
    Keeps P (unifyConventions conv) := by
  refine Triple.keeps_get.bind fun m =>
    Triple.sumOver (I := fun _ => P) (fun id _ => ?_) m.funcs.ids
  refine (Triple.keeps_func id).bind fun f => ?_
  split_ifs
  · exact Triple.pure fun _ h => h
  · exact (hconv id conv).bind fun _ => Triple.pure fun _ h => h

/-- The finishing touches change conventions and what is neither a function nor a global. -/
theorem keeps_finish (hcongr : ∀ m m', m'.funcs = m.funcs → m'.globals = m.globals → P m → P m')
    (hconv : ∀ id conv, Keeps P (setConv id conv)) (c : Config) : Keeps P (Pipeline.finish c) := by
  have hchange : ∀ {α : Type} (f : Module → α × Module),
      (∀ m, (f m).2.funcs = m.funcs) → (∀ m, (f m).2.globals = m.globals) → Keeps P (change f) :=
    fun f hfuncs hglobals => Triple.change fun m => hcongr m (f m).2 (hfuncs m) (hglobals m)
  have hunify : ∀ conv, Keeps P (do let _ ← unifyConventions conv) := fun conv =>
    (keeps_unifyConventions hconv conv).bind fun _ => Triple.pure fun _ h => h
  have hskip : Keeps P (pure ()) := Triple.pure fun _ h => h
  refine (hchange _ (fun _ => rfl) fun _ => rfl).bind fun _ =>
    (hchange _ (fun _ => rfl) fun _ => rfl).bind fun _ => ?_
  dsimp only
  split
  · refine (hchange _ (fun _ => rfl) fun _ => rfl).bind fun _ => ?_
    split
    exacts [hunify _, hskip]
  · split
    exacts [hunify _, hskip]

end ModuleM

end KernelIR
