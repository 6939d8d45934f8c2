import KernelIR.Proofs.Naming.Steps
import KernelIR.Proofs.WellFormed.Builtin
import KernelIR.Proofs.WellFormed.Casts
import KernelIR.Proofs.WellFormed.Preparation
import Mathlib

/-!
# The pipeline on well-formed modules

Every stage keeps modules well formed, and what a well-formed module becomes passes verification.
-/

namespace KernelIR

variable {m m' : Module} {id : FuncId}

namespace Module

/-- A redefined function has the body that it had and takes as many arguments. -/
theorem WellFormed.redefined {f g : Func} (h : m.WellFormed) (hr : m.Redefined id f g m')
    (hbody : g.body = f.body) : m'.WellFormed := by
  have hparams : g.params.length = f.params.length := by
    have htypes := congrArg List.length (Prod.mk.inj hr.prototype).2
    simpa only [List.length_map] using htypes
  exact h.updated_of_nodup hr.updated hr.before (hr.nodup h.symbols)
    ((h.funcs id f hr.before).congr hbody hparams)

theorem WellFormed.replaceFunc {new : FuncId} {f : Func} (h : m.WellFormed)
    (hr : m.replaceFunc id new = .ok (f, m')) : m'.WellFormed := by
  obtain ⟨-, g, -, hg, hid, rfl⟩ := replaceFunc_eq_ok hr
  refine WellFormed.erase (h.redirect fun id' hid' => ?_) hid
  rw [sendTo]
  split_ifs
  · exact Arena.contains_iff.2 ⟨g, hg⟩
  · exact hid'

theorem WellFormed.bindDeclaration {name : Option String} (h : m.WellFormed)
    (hb : m.bindDeclaration id = .ok (name, m')) : m'.WellFormed := by
  cases bindDeclaration_eq_ok hb with
  | keep => exact h
  | rename _ _ _ hr =>
      obtain ⟨f, hr⟩ := renameFunc_redefined hr
      exact h.redefined hr rfl
  | merge _ _ _ _ _ hr => exact h.replaceFunc hr

end Module

namespace ModuleM

theorem keeps_prepareFlow (flow : Flow) (afterO3 : Bool) (d : Demangler) :
    Keeps Module.WellFormed (prepareFlow flow afterO3 d) := by
  cases flow with
  | spir =>
      exact keeps_useDeviceConventions.bind fun _ => keeps_requestInlining.bind fun _ =>
        Triple.pure fun _ h => h
  | hls =>
      have hflatten : ∀ folded, Keeps Module.WellFormed (do
          let _ ← change Module.requestFlattening
          pure folded) := fun folded : Nat =>
        keeps_requestFlattening.bind fun _ => Triple.pure fun _ h => h
      refine (keeps_useSynthesisConventions afterO3).bind fun _ =>
        (keeps_checkBuiltins d).bind fun _ => ?_
      dsimp only
      split
      · exact keeps_foldGlobalId.bind hflatten
      · exact Triple.bind (Triple.pure fun _ h => h) hflatten

theorem triple_prepare (flow : Flow) (afterO3 : Bool) (d : Demangler) (steps : Nat) :
    Triple Module.Ready (prepare flow afterO3 d steps) fun _ => Module.WellFormed := by
  refine (keeps_unwrapWrappers flow.kernelMode steps).bind fun _ =>
    Triple.bind (Triple.change fun m hm => hm.hideSymbols) fun _ =>
      Triple.bind (keeps_expandMemCalls.conseq (fun _ h => h) fun _ _ h => h.wellFormed) fun _ =>
        keeps_dropCallCasts.bind fun _ => (keeps_prepareFlow flow afterO3 d).bind fun _ =>
          Triple.pure fun _ h => h

theorem keeps_nameParams (id : FuncId) : Keeps Module.WellFormed (Pipeline.nameParams id) := by
  intro m n m' hm h
  obtain ⟨f, hr⟩ := nameParams_eq_ok h
  exact hm.redefined hr rfl

theorem keeps_decorateKernel (d : Demangler) (counts : PipelineCounts) (id : FuncId) :
    Keeps Module.WellFormed (Pipeline.decorateKernel d counts id) := by
  refine Triple.bind (R := fun _ => Module.WellFormed) (Triple.edit fun m _ m' hm h => ?_) fun _ =>
    Triple.bind (R := fun _ => Module.WellFormed) (Triple.edit fun m _ m' hm h => ?_) fun _ =>
      (keeps_nameParams id).bind fun _ => (keeps_collapseGenericCasts id).bind fun _ =>
        Triple.pure fun _ h => h
  · obtain ⟨f, metadata, hr⟩ := Module.attachWorkGroupSize_eq_ok h
    exact hm.redefined hr rfl
  · obtain ⟨f, name, hr, -⟩ := Module.setKernelName_eq_ok h
    exact hm.redefined hr rfl

theorem keeps_rename (namer : DeviceNamer) (id : FuncId) :
    Keeps Module.WellFormed (namer.rename id) := by
  intro m r m' hm h
  obtain ⟨f, n, hr, -⟩ := rename_eq_ok h
  exact hm.redefined hr rfl

theorem keeps_nameDeviceFunction (state : DeviceNamer × PipelineCounts) (id : FuncId) :
    Keeps Module.WellFormed (Pipeline.nameDeviceFunction state id) :=
  (keeps_rename state.1 id).bind fun _ => (keeps_nameParams id).bind fun _ =>
    (keeps_collapseGenericCasts id).bind fun _ => Triple.pure fun _ h => h

theorem keeps_bindDeclarations (ids : List FuncId) :
    Keeps Module.WellFormed (bindDeclarations ids) := by
  refine Triple.sumOver (I := fun _ => Module.WellFormed) (fun id _ => ?_) ids
  refine Triple.bind (Triple.edit fun _ _ _ hm h => hm.bindDeclaration h) fun name => ?_
  split <;> exact Triple.pure fun _ h => h

theorem triple_prepareStage (c : Config) (flow : Flow) (d : Demangler) (steps : Nat) :
    Triple Module.Ready (Pipeline.prepareStage c flow d steps) fun _ => Module.WellFormed := by
  rw [Pipeline.prepareStage]
  split
  · rw [map_eq_pure_bind]
    exact (triple_prepare flow c.afterO3 d steps).bind fun _ => Triple.pure fun _ h => h
  · exact Triple.pure fun _ h => h.wellFormed

theorem keeps_definitionsStage (d : Demangler) (mode : KernelMode)
    (preparation : Option PreparationCounts) (prepared : Module) :
    Keeps Module.WellFormed (Pipeline.definitionsStage d mode preparation prepared) :=
  Triple.bind (Triple.foldlM (I := fun _ _ => Module.WellFormed)
      (fun id _ counts => keeps_decorateKernel d counts id) _ _) fun _ =>
    Triple.bind (Triple.foldlM (I := fun _ _ => Module.WellFormed)
      (fun id _ state => keeps_nameDeviceFunction state id) _ _) fun _ => Triple.pure fun _ h => h

end ModuleM

namespace Pipeline

variable {c : Config} {d : Demangler} {steps : Nat} {counts : PipelineCounts}

/-- The pipeline makes a module well formed that is ready for the preparation. -/
theorem wellFormed_run (hm : m.Ready) (hrun : (run c d steps).apply m = (.ok counts, m')) :
    m'.WellFormed := by
  obtain ⟨_, prepared, _, named, _, last, hprepare, hdefinitions, hbind, hfinish⟩ := run_eq_ok hrun
  have hprepared := ModuleM.triple_prepareStage c (c.flowFor m) d steps m _ prepared hm hprepare
  have hnamed := ModuleM.keeps_definitionsStage d _ _ _ prepared _ named hprepared hdefinitions
  have hlast := ModuleM.keeps_bindDeclarations _ named _ last hnamed hbind
  exact ModuleM.keeps_finish (fun _ _ hfuncs hglobals h => h.congr hfuncs hglobals)
    ModuleM.keeps_setConv c last _ m' hlast hfinish

/-- What a run makes of a verified module passes verification, if all handles of the module are
live, no register depends on itself, calls name their functions, and calls of memory intrinsics
have no results. -/
theorem verify_run (hverify : m.verify = .ok ()) (hends : m.EndsLive)
    (hacyclic : ∀ f ∈ m.funcs.values, f.Acyclic) (hdiscards : m.DiscardsMemCalls)
    (hresolved : ∀ f ∈ m.funcs.values, f.Resolved)
    (hrun : (run c d steps).apply m = (.ok counts, m')) : m'.verify = .ok () :=
  (wellFormed_run ⟨.of_verify hverify hends hacyclic hresolved, hdiscards⟩ hrun).verify

namespace copyKernel

def pointer (space : AddressSpace) : Param := ⟨none, .ptr space⟩

def kernel : Func where
  name := "copy"
  params := [pointer .globalMemory, ⟨some "n", .int 64⟩]
  retTy := .void
  body := .ofList [(.entry, ⟨[
    .call ⟨none, .void, .direct ⟨3, 1⟩, [.arg 0, .arg 0, .arg 1], .c⟩,
    .call ⟨none, .void, .direct ⟨2, 1⟩, [.arg 1], .c⟩,
    .call ⟨none, .void, .cast ⟨4, 1⟩, [.arg 0], .c⟩], .ret none⟩)]
  conv := .spirKernel

def device : Func where
  name := "twice"
  params := [⟨none, .int 64⟩]
  retTy := .int 64
  body := .ofList [(.entry, ⟨[.arith .add 0 (.int 64) (.arg 0) (.arg 0)], .ret (some (.reg 0))⟩)]

/-- A kernel moves memory, calls a device function, and calls a builtin through a cast. -/
def source : Module where
  funcs := .ofList [kernel, device,
    { name := "llvm.memmove.p1", params := [], retTy := .void },
    { name := "_Z18__spir_ocl_barrierv", params := [pointer .generic], retTy := .void }]

def result : Module := ((run {} .none 10).apply source).2

def tally : PipelineCounts where
  preparation := some { hidden := 1, expanded := 1, uncast := 1 }
  kernels := 1
  renamedKernels := 1
  deviceFunctions := 1
  namedParams := 2
  boundDeclarations := 1

end copyKernel

open copyKernel in
theorem copyKernel_verify_run :
    (run {} .none 10).apply source = (.ok tally, result) ∧ result.verify = .ok () := by
  have hrun : (run {} .none 10).apply source = (.ok tally, result) :=
    Prod.ext (by decide +kernel) rfl
  have hresolved : ∀ f ∈ source.funcs.values, ∀ e ∈ f.calls,
      ∃ id, e.2.callee.resolve? = some id := by
    simp only [← Option.isSome_iff_exists]
    decide +kernel
  refine ⟨hrun, verify_run (by decide +kernel) ⟨by decide +kernel, by decide +kernel⟩ ?_ ?_ ?_ hrun⟩
  · refine fun f hf => Func.acyclic_of_lt ?_
    revert f
    decide +kernel
  · rw [Module.DiscardsMemCalls]
    decide +kernel
  · intro f hf c hc
    obtain ⟨pos, hpos⟩ := Func.hasCall_iff.1 hc
    exact hresolved f hf _ hpos

end Pipeline

end KernelIR
