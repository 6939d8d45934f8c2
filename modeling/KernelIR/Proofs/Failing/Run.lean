import KernelIR.Proofs.Failing.Naming
import KernelIR.Proofs.Failing.Preparation
import KernelIR.Proofs.Handles.Run
import Mathlib

/-!
# What a failed run leaves behind

A run fails in one of its stages, and nothing is rolled back: what the stage did before it failed
stays.  So the stage leaves the module as it found it exactly if its rounds, taken on that module,
change nothing up to the one that fails.
-/

namespace KernelIR

namespace ModuleM

variable {α β γ : Type} {m m' : Module} {e : Failure}

theorem bind_eq_error_iff {x : ModuleM α} {f : α → ModuleM β} :
    (x >>= f).apply m = (.error e, m') ↔ x.apply m = (.error e, m') ∨
      ∃ a m₁, x.apply m = (.ok a, m₁) ∧ (f a).apply m₁ = (.error e, m') := by
  rw [apply_bind]
  rcases x.apply m with ⟨e' | a, m₁⟩ <;> simp

theorem effect_eq_error_iff {x : ModuleM α} :
    (effect x).apply m = (.error e, m') ↔ x.apply m = (.error e, m') := by
  rw [apply_effect]
  rcases x.apply m with ⟨e' | a, m₁⟩ <;> simp [Except.map]

/-- A loop fails in one of its rounds, after those before it have succeeded. -/
theorem forM_eq_error_iff {f : β → ModuleM Unit} {xs : List β} :
    (xs.forM f).apply m = (.error e, m') ↔ ∃ before x after start, xs = before ++ x :: after ∧
      (before.forM f).apply m = (.ok (), start) ∧ (f x).apply start = (.error e, m') := by
  constructor
  · intro h
    induction xs generalizing m with
    | nil => cases h
    | cons x xs ih =>
        rcases bind_eq_error_iff.1 h with h | ⟨_, m₁, hx, h⟩
        · exact ⟨[], x, xs, m, rfl, rfl, h⟩
        · obtain ⟨before, y, after, start, rfl, hbefore, hy⟩ := ih h
          refine ⟨x :: before, y, after, start, rfl, ?_, hy⟩
          change (f x >>= fun _ => before.forM f).apply m = _
          rw [apply_bind, hx]
          exact hbefore
  · rintro ⟨before, x, after, start, rfl, hbefore, hx⟩
    rw [List.forM_eq_forM, List.forM_append]
    refine bind_eq_error_iff.2 (Or.inr ⟨_, start, hbefore, ?_⟩)
    rw [List.forM_cons]
    exact bind_eq_error_iff.2 (Or.inl hx)

theorem effect_bind (x : ModuleM α) (f : Unit → ModuleM β) :
    effect x >>= f = x >>= fun _ => f () := by
  rw [effect, bind_assoc]
  rfl

theorem bind_congr_of_effect {x : ModuleM α} {y : ModuleM γ} (h : effect x = effect y)
    (z : ModuleM β) : (x >>= fun _ => z) = y >>= fun _ => z := by
  rw [← effect_bind x fun _ => z, h, effect_bind]

theorem effect_foldlM {f : α → β → ModuleM α} {g : β → ModuleM Unit}
    (h : ∀ a b, effect (f a b) = g b) (xs : List β) (a : α) :
    effect (xs.foldlM f a) = xs.forM g := by
  induction xs generalizing a with
  | nil => rfl
  | cons x xs ih =>
      rw [List.foldlM_cons, List.forM_eq_forM, List.forM_cons, ← h a x, effect_bind, effect,
        bind_assoc]
      exact bind_congr fun a' => ih a'

end ModuleM

namespace Pipeline

open ModuleM

/-- The stages of a run, with the functions that they are about. -/
inductive Stage where
  | preparation
  | kernels (ids : List FuncId)
  | deviceFunctions (ids : List FuncId)
  | declarations (ids : List FuncId)
  | finishing

namespace Stage

/-- What a stage does, but for what it counts. -/
def action (c : Config) (d : Demangler) (steps : Nat) (flow : Flow) : Stage → ModuleM Unit
  | preparation => effect (prepareStage c flow d steps)
  | kernels ids => ids.forM fun id => effect (decorateKernel d {} id)
  | deviceFunctions ids => effect (ids.foldlM nameDeviceFunction ({}, {}))
  | declarations ids => effect (bindDeclarations ids)
  | finishing => finish c

/-- The stages after the preparation are about the functions of the module that is prepared. -/
def laterOn (mode : KernelMode) (prepared : Module) : List Stage :=
  [kernels (prepared.withRole mode .kernel),
    deviceFunctions (prepared.withRole mode .deviceFunction),
    declarations (prepared.withRole mode .declaration), finishing]

/-- The rounds of a stage that begins with `m`.  Naming device functions and the finishing touches
do not fail. -/
def rounds (c : Config) (d : Demangler) (steps : Nat) (flow : Flow) (m : Module) :
    Stage → List (ModuleM Unit)
  | preparation => if c.runPreparation then preparationRounds flow c.afterO3 d steps m else []
  | kernels ids => ids.flatMap (kernelRounds d)
  | declarations ids => declarationRounds ids
  | deviceFunctions _ | finishing => []

end Stage

theorem effect_decorateKernel (d : Demangler) (counts : PipelineCounts) (id : FuncId) :
    effect (decorateKernel d counts id) = effect (decorateKernel d {} id) := by
  simp [effect, decorateKernel]

theorem effect_nameDeviceFunctions (ids : List FuncId) (namer : DeviceNamer)
    (counts : PipelineCounts) : effect (ids.foldlM nameDeviceFunction (namer, counts)) =
      effect (ids.foldlM nameDeviceFunction (namer, {})) := by
  induction ids generalizing namer counts with
  | nil => rfl
  | cons id ids ih =>
      have hstep : ∀ counts, effect ((id :: ids).foldlM nameDeviceFunction (namer, counts)) = (do
          let renamed ← namer.rename id
          let _ ← nameParams id
          let _ ← collapseGenericCasts id
          effect (ids.foldlM nameDeviceFunction (renamed.2, {}))) := by
        intro counts
        rw [List.foldlM_cons, effect]
        simp only [nameDeviceFunction, bind_assoc, pure_bind]
        exact bind_congr fun renamed => bind_congr fun _ => bind_congr fun _ => ih renamed.2 _
      rw [hstep, hstep]

/-- The stages follow each other. -/
theorem effect_run (c : Config) (d : Demangler) (steps : Nat) : effect (run c d steps) = (do
    let flow := c.flowFor (← get)
    Stage.preparation.action c d steps flow
    let prepared ← get
    (Stage.laterOn flow.kernelMode prepared).forM (Stage.action c d steps flow)) := by
  rw [run_eq_stages]
  simp only [effect, definitionsStage, bind_assoc, pure_bind]
  refine bind_congr fun m => ?_
  simp only [Stage.action, effect_bind]
  refine bind_congr fun preparation => bind_congr fun prepared => ?_
  -- the counts that are passed on change nothing
  refine (bind_congr fun counts =>
    bind_congr_of_effect (effect_nameDeviceFunctions _ {} counts) _).trans ?_
  have hkernels := effect_foldlM (effect_decorateKernel d)
    (prepared.withRole (c.flowFor m).kernelMode .kernel)
  refine (bind_congr_of_effect ((hkernels _).trans (effect_eq _).symm) _).trans ?_
  simp only [Stage.laterOn, List.forM_eq_forM, List.forM_cons, List.forM_nil, Stage.action,
    effect_bind]

section Reaches

variable (c : Config) (d : Demangler) (steps : Nat) (flow : Flow) (m : Module)

/-- The run on `m` comes to the stage with the module `start`. -/
inductive Reaches : Stage → Module → Prop
  | preparation : Reaches .preparation m
  | later {prepared start : Module} {before after : List Stage} {stage : Stage}
      (hprepare : (Stage.preparation.action c d steps flow).apply m = (.ok (), prepared))
      (hstage : Stage.laterOn flow.kernelMode prepared = before ++ stage :: after)
      (hbefore : (before.forM (Stage.action c d steps flow)).apply prepared = (.ok (), start)) :
      Reaches stage start

end Reaches

section Failures

variable {c : Config} {d : Demangler} {steps : Nat} {flow : Flow} {m start left : Module}
  {stage : Stage} {e : Failure}

/-- A run that fails does so in a stage that it comes to. -/
theorem run_eq_error_iff : (run c d steps).apply m = (.error e, left) ↔
    ∃ stage start, Reaches c d steps (c.flowFor m) m stage start ∧
      (stage.action c d steps (c.flowFor m)).apply start = (.error e, left) := by
  rw [← effect_eq_error_iff, effect_run, apply_bind, apply_get]
  dsimp only
  rw [bind_eq_error_iff]
  constructor
  · rintro (h | ⟨⟨⟩, prepared, hprepare, h⟩)
    · exact ⟨.preparation, m, .preparation, h⟩
    · rw [apply_bind, apply_get] at h
      obtain ⟨before, stage, after, start, hstage, hbefore, h⟩ := forM_eq_error_iff.1 h
      exact ⟨stage, start, .later hprepare hstage hbefore, h⟩
  · rintro ⟨stage, start, hreaches, h⟩
    cases hreaches with
    | preparation => exact Or.inl h
    | later hprepare hstage hbefore =>
        refine Or.inr ⟨(), _, hprepare, ?_⟩
        rw [apply_bind, apply_get]
        exact forM_eq_error_iff.2 ⟨_, _, _, _, hstage, hbefore, h⟩

theorem failsBy_prepareStage : FailsBy (Module.unprepared (flow.convention c.afterO3)) m
    (prepareStage c flow d steps) (Stage.preparation.rounds c d steps flow m) := by
  rw [prepareStage, Stage.rounds]
  split_ifs
  · exact FailsBy.bind_of_ok (failsBy_prepare flow c.afterO3 d steps) fun _ _ => rfl
  · exact FailsBy.pure _

theorem follows_decorateKernels (ids : List FuncId) :
    Follows (undecorated d) m ((Stage.kernels ids).action c d steps flow)
      (ids.flatMap (kernelRounds d)) := by
  refine Follows.forM (r := fun _ id => kernelRounds d id) (fun id m => ?_) ids
  rw [← List.append_nil (kernelRounds d id)]
  exact (follows_decorateKernel {} id).bind (l := fun _ => []) fun _ _ => Follows.pure _

theorem spares_decorateKernels {live : Set FuncId} {ids : List FuncId}
    (hids : ∀ id ∈ ids, id ∈ live) :
    Spares live ((Stage.kernels ids).action c d steps flow) :=
  Spares.forM fun id hid => (spares_decorateKernel d {} (hids id hid)).bind fun _ => Spares.pure _

/-- The device functions are live when their stage begins. -/
theorem Reaches.live {ids : List FuncId}
    (h : Reaches c d steps flow m (.deviceFunctions ids) start) :
    Module.Alive {id | id ∈ ids} start := by
  cases h with
  | @later prepared _ before after _ hprepare hstage hbefore =>
      rcases before with _ | ⟨s, _ | ⟨s', before⟩⟩
      · cases hstage
      · cases hstage
        obtain ⟨_, _, hkernels, hend⟩ := bind_eq_ok hbefore
        cases hend
        have hspares : Spares {id | prepared.funcs.contains id = true}
            ((Stage.kernels (prepared.withRole flow.kernelMode .kernel)).action c d steps flow) :=
          spares_decorateKernels fun id hid => contains_of_mem_withRole hid
        have hlive := hspares.of_ok (fun _ hid => hid) hkernels
        exact fun id hid => hlive id (contains_of_mem_withRole hid)
      · have hmem : Stage.deviceFunctions ids ∈ before ++ .deviceFunctions ids :: after :=
          List.mem_append_right _ List.mem_cons_self
        have hlater : [.declarations _, .finishing] = before ++ .deviceFunctions ids :: after :=
          (List.cons.inj (List.cons.inj hstage).2).2
        rw [← hlater] at hmem
        simp at hmem

/-- Where it comes to fail, a stage leaves the module that it began with exactly if its rounds on
this module change nothing up to the one that fails. -/
theorem Reaches.left_eq_start_iff (h : Reaches c d steps flow m stage start)
    (hfail : (stage.action c d steps flow).apply start = (.error e, left)) :
    left = start ↔ start.idleEnd? (stage.rounds c d steps flow start) = some (.error e) := by
  cases stage with
  | preparation => exact (failsBy_prepareStage e left (effect_eq_error_iff.1 hfail)).1
  | kernels ids => exact ((follows_decorateKernels ids).failsBy e left hfail).1
  | deviceFunctions ids =>
      exact ((succeeds_nameDeviceFunctions ({}, {}) fun _ hid => hid).of_error h.live
        (effect_eq_error_iff.1 hfail)).elim
  | declarations ids =>
      exact ((follows_bindDeclarations ids).failsBy e left (effect_eq_error_iff.1 hfail)).1
  | finishing =>
      obtain ⟨m', hok⟩ := finish_ok c start
      cases hok.symm.trans hfail

end Failures

/-- A run that fails does so in a stage that it comes to, and leaves what this stage made of the
module that it began with.  That is the same module exactly if the rounds of the stage, taken on
the module that it began with, change nothing up to the one that fails. -/
theorem run_failure_leaves_start_iff (c : Config) (d : Demangler) (steps : Nat) (m left : Module)
    (e : Failure) :
    ((run c d steps).apply m = (.error e, left) ↔
      ∃ stage start, Reaches c d steps (c.flowFor m) m stage start ∧
        (stage.action c d steps (c.flowFor m)).apply start = (.error e, left)) ∧
    ∀ stage start, Reaches c d steps (c.flowFor m) m stage start →
      (stage.action c d steps (c.flowFor m)).apply start = (.error e, left) →
        (left = start ↔
          start.idleEnd? (stage.rounds c d steps (c.flowFor m) start) = some (.error e)) :=
  ⟨run_eq_error_iff, fun _ _ => Reaches.left_eq_start_iff⟩

namespace badSize

/-- Two kernels, of which the first one has the parameters. -/
def kernels (params : List Param) : Module where
  funcs := .ofList [
    { name := "xSYCL7", params, retTy := .void, conv := .spirKernel
      body := .ofList [(.entry, ⟨[], .ret none⟩)] },
    { name := "k", params := [], retTy := .void, conv := .spirKernel
      body := .ofList [(.entry, ⟨[], .ret none⟩)] }]

def marked : String := "cl::sycl::xilinx::reqd_work_group_size<4>"

/-- The second kernel is to have a size of one dimension. -/
def names : Demangler := fun symbol => if symbol = "k" then some marked else none

def config : Config where
  runPreparation := false

def kernelStage : Stage := .kernels [⟨1, 1⟩, ⟨2, 1⟩]

def leftOf (params : List Param) : Module := ((run config names 0).apply (kernels params)).2

theorem reaches (params : List Param) :
    Reaches config names 0 .spir (kernels params) kernelStage (kernels params) :=
  have hprepare : (Stage.preparation.action config names 0 .spir).apply (kernels params) =
      (.ok (), kernels params) := rfl
  .later hprepare (show _ = [] ++ kernelStage :: _ from rfl) rfl

end badSize

open badSize in
/-- The parameter of the first kernel has a name, so that nothing is left to do before the second
kernel fails. -/
theorem badSize_leaves_start :
    (run config names 0).apply (kernels [⟨some "n", .int 32⟩]) =
        (.error (.workGroupSize "k" marked 1), leftOf [⟨some "n", .int 32⟩]) ∧
      leftOf [⟨some "n", .int 32⟩] = kernels [⟨some "n", .int 32⟩] := by
  have hstage : (kernelStage.action config names 0 .spir).apply (kernels [⟨some "n", .int 32⟩]) =
      (.error (.workGroupSize "k" marked 1), leftOf [⟨some "n", .int 32⟩]) := by decide +kernel
  have hidle : (kernels [⟨some "n", .int 32⟩]).idleEnd?
      (kernelStage.rounds config names 0 .spir (kernels [⟨some "n", .int 32⟩])) =
        some (.error (.workGroupSize "k" marked 1)) := by decide +kernel
  obtain ⟨hfails, hleft⟩ := run_failure_leaves_start_iff config names 0
    (kernels [⟨some "n", .int 32⟩]) (leftOf [⟨some "n", .int 32⟩]) (.workGroupSize "k" marked 1)
  exact ⟨hfails.2 ⟨kernelStage, _, reaches _, hstage⟩,
    (hleft kernelStage _ (reaches _) hstage).2 hidle⟩

open badSize in
/-- Before the second kernel fails, the parameter of the first one is named. -/
theorem badSize_changes_start :
    Reaches config names 0 .spir (kernels [⟨none, .int 32⟩]) kernelStage
        (kernels [⟨none, .int 32⟩]) ∧
      (kernelStage.action config names 0 .spir).apply (kernels [⟨none, .int 32⟩]) =
        (.error (.workGroupSize "k" marked 1), leftOf [⟨none, .int 32⟩]) ∧
      (run config names 0).apply (kernels [⟨none, .int 32⟩]) =
        (.error (.workGroupSize "k" marked 1), leftOf [⟨none, .int 32⟩]) ∧
      leftOf [⟨none, .int 32⟩] ≠ kernels [⟨none, .int 32⟩] := by
  refine ⟨reaches _, ?_⟩
  decide +kernel

end Pipeline

end KernelIR
