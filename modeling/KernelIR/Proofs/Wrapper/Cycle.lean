import KernelIR.Proofs.Wrapper.Unwrapped
import Mathlib

/-!
# Reported cycles

The functions being visited call one another, from a kernel inwards.  Only the innermost of them is
edited, so that the calls between them stay as they were when they were followed.  A wrapper that is
called while it is being visited itself thus lies on a cycle of calls.
-/

namespace KernelIR

namespace WrapperWalk

/-- Functions that call one another, the innermost first and a kernel last. -/
inductive CallPath (kernels : List FuncId) (m : Module) : List FuncId → Prop
  | nil : CallPath kernels m []
  | kernel {id : FuncId} (h : id ∈ kernels) : CallPath kernels m [id]
  | call {id outer : FuncId} {rest : List FuncId} (h : CallPath kernels m (outer :: rest))
      (hcall : m.Calls outer id) : CallPath kernels m (id :: outer :: rest)

variable {kernels : List FuncId} {m m' : Module} {path rest : List FuncId} {id inner : FuncId}

theorem CallPath.tail (h : CallPath kernels m (id :: rest)) : CallPath kernels m rest := by
  cases h with
  | kernel => exact .nil
  | call h => exact h

/-- An edit of the innermost function leaves the calls that led to it. -/
theorem CallPath.congr (h : CallPath kernels m path)
    (hlive : ∀ id, (m'.funcs.get? id).isSome = (m.funcs.get? id).isSome)
    (hsame : ∀ id ∈ path.tail, m'.funcs.get? id = m.funcs.get? id) :
    CallPath kernels m' path := by
  induction h with
  | nil => exact .nil
  | kernel h => exact .kernel h
  | call _ hcall ih =>
      refine .call (ih fun id hid => hsame id (List.mem_cons_of_mem _ hid)) ?_
      exact hcall.congr (hsame _ List.mem_cons_self) (hlive _)

theorem CallPath.exists_kernel (h : CallPath kernels m path) (hid : id ∈ path) :
    ∃ kernel ∈ kernels, Relation.ReflTransGen m.Calls kernel id := by
  induction h generalizing id with
  | nil => exact nomatch hid
  | @kernel kernel hkernel =>
      obtain rfl := List.mem_singleton.1 hid
      exact ⟨id, hkernel, .refl⟩
  | @call inner outer rest _ hcall ih =>
      rcases List.mem_cons.1 hid with rfl | hid
      · obtain ⟨kernel, hkernel, hreach⟩ := ih List.mem_cons_self
        exact ⟨kernel, hkernel, hreach.tail hcall⟩
      · exact ih hid

theorem CallPath.reaches_head (h : CallPath kernels m path) (hinner : path.head? = some inner)
    (hid : id ∈ path) : Relation.ReflTransGen m.Calls id inner := by
  induction h generalizing inner with
  | nil => exact nomatch hid
  | kernel =>
      obtain rfl := Option.some.inj hinner
      obtain rfl := List.mem_singleton.1 hid
      exact .refl
  | @call top outer rest _ hcall ih =>
      obtain rfl := Option.some.inj hinner
      rcases List.mem_cons.1 hid with rfl | hid
      · exact .refl
      · exact (ih rfl hid).tail hcall

/-- What holds at every point of a walk from `kernels`. -/
structure Stacked (kernels : List FuncId) (w : WrapperWalk) (m : Module) : Prop where
  pending : w.pending ⊆ kernels
  path : CallPath kernels m w.path

theorem Stacked.init (kernels : List FuncId) (m : Module) :
    Stacked kernels { pending := kernels } m :=
  ⟨List.Subset.refl _, .nil⟩

/-- The function being visited calls what the walk goes on with. -/
theorem Stacked.push {w w' : WrapperWalk} {f g : Func} {e : Position × Call}
    (h : Stacked kernels w m) (hpath : w.path = id :: rest) (hf : m.funcs.get? id = some f)
    (he : e ∈ f.calls) (hres : e.2.callee.resolve? = some inner)
    (hg : m.funcs.get? inner = some g) (hpath' : w'.path = inner :: w.path)
    (hpending : w'.pending = w.pending) : Stacked kernels w' m := by
  refine ⟨hpending ▸ h.pending, ?_⟩
  have hpath₀ := h.path
  rw [hpath', hpath]
  rw [hpath] at hpath₀
  exact .call hpath₀ ⟨f, hf, ⟨e, he, hres⟩, by rw [hg]; rfl⟩

theorem Stacked.moves {start : Module} {w w' : WrapperWalk} (h : Stacked kernels w m)
    (hexp : Explored kernels start w m) (hmove : Moves w m w' m') : Stacked kernels w' m' := by
  have hlive := hmove.isSome_get?
  cases hmove with
  | skip hpath hpending hvisited =>
      exact ⟨(List.cons_subset.1 (hpending ▸ h.pending)).2, h.path⟩
  | start hpath hpending hvisited =>
      obtain ⟨hkernel, hrest⟩ := List.cons_subset.1 (hpending ▸ h.pending)
      exact ⟨hrest, .kernel hkernel⟩
  | leave hpath hf hnext =>
      have hpath₀ := h.path
      rw [hpath] at hpath₀
      exact ⟨h.pending, hpath₀.tail⟩
  | descend hpath hf hnext =>
      obtain ⟨-, e, g, he, hres, hg, -⟩ := nextStep?_eq_descend hnext
      exact h.push hpath hf he hres hg rfl rfl
  | enter hpath hf hnext hactive hdone =>
      obtain ⟨call, g, hcall, hres, hg, -⟩ := nextStep?_eq_unwrap hnext
      exact h.push hpath hf hcall hres hg rfl rfl
  | @unwrap id wrapper outer f g pos cont m' hpath hf hnext hactive hdone hg hinline =>
      obtain ⟨hother, -⟩ := Module.handOver_inlineAt hf hinline
      refine ⟨h.pending, h.path.congr hlive fun id' hid' => hother id' ?_⟩
      -- The edited function stands on the path once, as its head.
      have hn := (List.nodup_append.1 hexp.nodup).1
      rw [hpath] at hn hid'
      rintro rfl
      exact (List.nodup_cons.1 hn).1 hid'

end WrapperWalk

/-- A reported cycle is one: the named function is a wrapper that a kernel reaches and that calls
itself, through whatever other functions, in the module that the error leaves. -/
theorem unwrapWrappers_cycle {mode : KernelMode} {steps : Nat} {m m' : Module} {name : String}
    (h : (unwrapWrappers mode steps).apply m = (.error (.wrapperCycle name), m')) :
    ∃ wrapper f, m'.funcs.get? wrapper = some f ∧ f.name = name ∧ f.isWrapper = true ∧
      (∃ kernel ∈ m.withRole mode .kernel, Relation.ReflTransGen m'.Calls kernel wrapper) ∧
        Relation.TransGen m'.Calls wrapper wrapper := by
  rw [unwrapWrappers, ModuleM.apply_bind, ModuleM.apply_get] at h
  obtain ⟨w, m₁, ⟨-, hw⟩, hstep⟩ := WrapperWalk.run_eq_error
    (P := fun w m₁ => WrapperWalk.Explored (m.withRole mode .kernel) m w m₁ ∧
      WrapperWalk.Stacked (m.withRole mode .kernel) w m₁)
    (fun hP hmove => ⟨hP.1.moves hmove, hP.2.moves hP.1 hmove⟩) ⟨.init _ m, .init _ m⟩ h (by simp)
  obtain ⟨rfl, id, outer, f, pos, wrapper, g, hpath, hf, hnext, hactive, hg, rfl⟩ :=
    WrapperWalk.step_eq_wrapperCycle hstep
  obtain ⟨call, g', hcall, hres, hg', hwrapper⟩ := WrapperWalk.nextStep?_eq_unwrap hnext
  obtain rfl : g = g' := Option.some.inj (hg.symm.trans hg')
  have hlive : (m'.funcs.get? wrapper).isSome = true := by rw [hg]; rfl
  have hchain := hw.path
  rw [hpath] at hchain hactive
  exact ⟨wrapper, g, hg, rfl, hwrapper, hchain.exists_kernel hactive,
    .tail' (hchain.reaches_head rfl hactive) ⟨f, hf, ⟨_, hcall, hres⟩, hlive⟩⟩

namespace cyclicWrapper

/-- A function without parameters that calls each of `callees`. -/
def caller (name : String) (callees : List Nat) (conv : CallConv) (attributes : Attributes) :
    Func where
  name := name
  params := []
  retTy := .void
  body := .ofList [(.entry, ⟨callees.map fun id => .call ⟨none, .void, .direct ⟨id, 1⟩, [], .c⟩,
    .ret none⟩)]
  conv := conv
  attributes := attributes

def marked : Attributes := { strings := .ofList [(wrapperKey, ""), ("fpga.unroll", "4")] }

/-- The wrapper `outer` calls itself through `helper`, after a call of the wrapper `inner`. -/
def module : Module where
  funcs := .ofList [caller "kernel" [2] .spirKernel {}, caller "outer" [3, 4] .c marked,
    caller "inner" [] .c marked, caller "helper" [2] .c {}]

/-- `inner` is inlined by the time that the cycle is found. -/
def left : Module := ((unwrapWrappers .callingConvention 20).apply module).2

end cyclicWrapper

open cyclicWrapper in
theorem cyclicWrapper_cycle :
    (unwrapWrappers .callingConvention 20).apply module = (.error (.wrapperCycle "outer"), left) ∧
      left ≠ module ∧
      ∃ wrapper f, left.funcs.get? wrapper = some f ∧ f.name = "outer" ∧ f.isWrapper = true ∧
        (∃ kernel ∈ module.withRole .callingConvention .kernel,
          Relation.ReflTransGen left.Calls kernel wrapper) ∧
          Relation.TransGen left.Calls wrapper wrapper := by
  have h : (unwrapWrappers .callingConvention 20).apply module =
      (.error (.wrapperCycle "outer"), left) := Prod.ext (by decide +kernel) rfl
  exact ⟨h, by decide +kernel, unwrapWrappers_cycle h⟩

end KernelIR
