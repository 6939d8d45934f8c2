import KernelIR.Proofs.Conventions
import Mathlib

/-!
# Kernels become top-level functions

The synthesis flow marks its kernels, gives them the C convention and refuses those that are called.
A kernel that carries the mark already is passed over: it keeps the kernel convention, and nothing
looks for its callers.
-/

namespace KernelIR

namespace Func

/-- Marked for the backend, and called by the C convention. -/
structure IsTopFunction (f : Func) : Prop where
  marked : f.attributes.contains topFunctionKey = true
  conv : f.conv = .c

theorem callees_assignConvs (σ : FuncId → Option CallConv) (f : Func) :
    (f.assignConvs σ).callees = f.callees := by
  rw [callees, calls_assignConvs, List.filterMap_map]
  rfl

end Func

namespace Treatment

theorem callees_header (t : Treatment) (f : Func) : (t.header f).callees = f.callees := by
  cases t <;> rfl

theorem isIntrinsic_header (t : Treatment) (f : Func) :
    (t.header f).isIntrinsic = f.isIntrinsic := by
  cases t <;> rfl

theorem synthesis_eq_skip {afterO3 : Bool} {f : Func}
    (hf : f.attributes.contains topFunctionKey = true) : synthesis afterO3 f = skip := by
  rw [synthesis, hf]
  rfl

theorem synthesis_eq_mark (afterO3 : Bool) {f : Func} (hintrinsic : f.isIntrinsic = false)
    (hkernel : f.conv = .spirKernel) (hf : f.attributes.contains topFunctionKey = false) :
    synthesis afterO3 f = mark := by
  rw [synthesis, hf, hintrinsic, if_neg (by simp), if_pos hkernel]

theorem isTopFunction_mark (f : Func) (σ : FuncId → Option CallConv) :
    ((mark.header f).assignConvs σ).IsTopFunction :=
  ⟨f.attributes.contains_insert_self _ _, rfl⟩

/-- Only a kernel that is passed over has the convention of a kernel afterwards. -/
theorem conv_synthesis {afterO3 : Bool} {f : Func} (hintrinsic : f.isIntrinsic = false)
    (h : ((synthesis afterO3 f).header f).conv = .spirKernel) :
    f.conv = .spirKernel ∧ f.attributes.contains topFunctionKey = true := by
  rw [synthesis, hintrinsic, Bool.or_false] at h
  split_ifs at h with hmarked hkernel hopt
  · exact ⟨h, hmarked⟩
  all_goals cases h

end Treatment

namespace Module

variable {m m' : Module} {plan : Func → Treatment} {id : FuncId} {f f' : Func}

theorem callSites_eq_nil_iff : m.callSites id = [] ↔
    ∀ caller f, m.funcs.get? caller = some f → id ∉ f.callees := by
  constructor
  · intro h caller f hf hid
    obtain ⟨e, he, hresolve⟩ := List.mem_filterMap.1 hid
    exact not_mem_calls_of_callSites h hf he hresolve
  · intro h
    rw [callSites, List.flatMap_eq_nil_iff]
    rintro ⟨caller, f⟩ hf
    rw [List.map_eq_nil_iff, List.filter_eq_nil_iff]
    intro e he hresolve
    exact h caller f (Arena.mem_entries_iff.1 hf)
      (List.mem_filterMap.2 ⟨e, he, by simpa using hresolve⟩)

namespace Treated

theorem get?_eq_some (h : m.Treated plan m') (hf : m.funcs.get? id = some f) :
    ∃ σ, m'.funcs.get? id = some (((plan f).header f).assignConvs σ) :=
  ⟨_, (h.funcs id).trans (congrArg _ hf)⟩

theorem exists_of_get? (h : m.Treated plan m') (hf : m'.funcs.get? id = some f') :
    ∃ f σ, m.funcs.get? id = some f ∧ f' = ((plan f).header f).assignConvs σ := by
  obtain ⟨f, hget, rfl⟩ := Option.map_eq_some_iff.1 ((h.funcs id).symm.trans hf)
  exact ⟨f, _, hget, rfl⟩

/-- A pass over the conventions takes no call away and redirects none. -/
theorem callSites_eq_nil_iff (h : m.Treated plan m') :
    m'.callSites id = [] ↔ m.callSites id = [] := by
  rw [Module.callSites_eq_nil_iff, Module.callSites_eq_nil_iff]
  constructor
  · intro hsites caller f hf
    obtain ⟨σ, hf'⟩ := h.get?_eq_some hf
    have hid := hsites caller _ hf'
    rwa [Func.callees_assignConvs, Treatment.callees_header] at hid
  · intro hsites caller f' hf'
    obtain ⟨f, σ, hf, rfl⟩ := h.exists_of_get? hf'
    rw [Func.callees_assignConvs, Treatment.callees_header]
    exact hsites caller f hf

end Treated

/-- Intrinsics apart, no kernel is left, and each kernel that there was is a top-level function
that nothing calls. -/
structure MarksKernels (m m' : Module) : Prop where
  gone : ∀ id f', m'.funcs.get? id = some f' → f'.isIntrinsic = false → f'.conv ≠ .spirKernel
  marked : ∀ id f, m.funcs.get? id = some f → f.isIntrinsic = false → f.conv = .spirKernel →
    ∃ f', m'.funcs.get? id = some f' ∧ f'.IsTopFunction ∧ m'.callSites id = []

/-- A kernel without the mark is treated as a kernel; one that has it stays what it is. -/
theorem marksKernels_iff {afterO3 : Bool} (h : m.Treated (Treatment.synthesis afterO3) m')
    (hmark : ∀ id f, m.funcs.get? id = some f → f.isIntrinsic = false → f.conv = .spirKernel →
      f.attributes.contains topFunctionKey = false →
        ∃ f', m'.funcs.get? id = some f' ∧ f'.IsTopFunction ∧ m'.callSites id = []) :
    m.MarksKernels m' ↔ ∀ id f, m.funcs.get? id = some f → f.isIntrinsic = false →
      f.conv = .spirKernel → f.attributes.contains topFunctionKey = false := by
  constructor
  · intro hmarks id f hf hintrinsic hkernel
    by_contra hmarked
    obtain ⟨σ, hf'⟩ := h.get?_eq_some hf
    rw [Treatment.synthesis_eq_skip (by simpa using hmarked)] at hf'
    exact hmarks.gone id _ hf' hintrinsic hkernel
  · intro hunmarked
    refine ⟨?_, fun id f hf hintrinsic hkernel =>
      hmark id f hf hintrinsic hkernel (hunmarked id f hf hintrinsic hkernel)⟩
    intro id f' hf' hintrinsic hkernel
    obtain ⟨f, σ, hf, rfl⟩ := h.exists_of_get? hf'
    have hintrinsic : f.isIntrinsic = false :=
      (Treatment.isIntrinsic_header _ f).symm.trans hintrinsic
    obtain ⟨hconv, hmarked⟩ := Treatment.conv_synthesis hintrinsic hkernel
    rw [hunmarked id f hf hintrinsic hconv] at hmarked
    cases hmarked

end Module

namespace ModuleM

open Treatment

/-- What the pass does to kernels that are no intrinsics.  One without the mark becomes a top-level
function, and nothing calls it.  One that has the mark keeps its convention, its attributes and the
calls to it.  So no kernel is left over exactly if none had the mark. -/
theorem useSynthesisConventions_marks {afterO3 : Bool} {m m' : Module}
    (h : (useSynthesisConventions afterO3).apply m = (.ok ⟨⟩, m')) :
    (∀ id f, m.funcs.get? id = some f → f.isIntrinsic = false → f.conv = .spirKernel →
      ∃ f', m'.funcs.get? id = some f' ∧
        if f.attributes.contains topFunctionKey then
          f'.conv = .spirKernel ∧ f'.attributes = f.attributes ∧
            (m'.callSites id = [] ↔ m.callSites id = [])
        else f'.IsTopFunction ∧ m'.callSites id = []) ∧
    (m.MarksKernels m' ↔ ∀ id f, m.funcs.get? id = some f → f.isIntrinsic = false →
      f.conv = .spirKernel → f.attributes.contains topFunctionKey = false) := by
  rw [useSynthesisConventions_eq] at h
  have ht := treated_of_treatAll (synthesis_assignConvs afterO3) h
  have huncalled := (treatAll_ok_iff (synthesis_assignConvs afterO3)).1 ⟨m', h⟩
  have hmark : ∀ id f, m.funcs.get? id = some f → f.isIntrinsic = false → f.conv = .spirKernel →
      f.attributes.contains topFunctionKey = false →
        ∃ f', m'.funcs.get? id = some f' ∧ f'.IsTopFunction ∧ m'.callSites id = [] := by
    intro id f hf hintrinsic hkernel hunmarked
    obtain ⟨σ, hf'⟩ := ht.get?_eq_some hf
    have hplan := synthesis_eq_mark afterO3 hintrinsic hkernel hunmarked
    refine ⟨_, hf', ?_, ht.callSites_eq_nil_iff.2 (huncalled id f hf (hplan ▸ rfl))⟩
    rw [hplan]
    exact isTopFunction_mark f σ
  refine ⟨?_, Module.marksKernels_iff ht hmark⟩
  intro id f hf hintrinsic hkernel
  cases hmarked : f.attributes.contains topFunctionKey with
  | false => simpa using hmark id f hf hintrinsic hkernel hmarked
  | true =>
      obtain ⟨σ, hf'⟩ := ht.get?_eq_some hf
      refine ⟨_, hf', ?_⟩
      rw [synthesis_eq_skip hmarked]
      exact ⟨hkernel, rfl, ht.callSites_eq_nil_iff⟩

namespace markedKernel

def marks : Attributes := Attributes.insert {} topFunctionKey ""

def kernel (name : String) (attributes : Attributes) : Func where
  name := name
  params := []
  retTy := .void
  body := .ofList [(.entry, ⟨[], .ret none⟩)]
  conv := .spirKernel
  attributes := attributes

/-- Calls the kernel that has the mark. -/
def host : Func where
  name := "host"
  params := []
  retTy := .void
  body := .ofList [(.entry, ⟨[.call ⟨none, .void, .direct ⟨2, 1⟩, [], .spirKernel⟩], .ret none⟩)]

def source : Module where
  funcs := .ofList [kernel "fresh" {}, kernel "marked" marks, kernel "llvm.kernel" {}, host]

def treated : Module := ((useSynthesisConventions true).apply source).2

end markedKernel

open markedKernel in
theorem markedKernel_marks :
    (useSynthesisConventions true).apply source = (.ok ⟨⟩, treated) ∧
      (∃ f', treated.funcs.get? ⟨1, 1⟩ = some f' ∧ f'.IsTopFunction ∧
        treated.callSites ⟨1, 1⟩ = []) ∧
      (∃ f', treated.funcs.get? ⟨2, 1⟩ = some f' ∧ f'.conv = .spirKernel ∧
        treated.callSites ⟨2, 1⟩ ≠ []) ∧
      ¬source.MarksKernels treated := by
  have hrun : (useSynthesisConventions true).apply source = (.ok ⟨⟩, treated) := by
    decide +kernel
  have hfresh : (kernel "fresh" {}).attributes.contains topFunctionKey = false := by
    decide +kernel
  have hmarked : (kernel "marked" marks).attributes.contains topFunctionKey = true := by
    decide +kernel
  obtain ⟨hkernels, hall⟩ := useSynthesisConventions_marks hrun
  obtain ⟨f₁, hf₁, h₁⟩ :=
    hkernels ⟨1, 1⟩ (kernel "fresh" {}) (by decide +kernel) (by decide +kernel) rfl
  obtain ⟨f₂, hf₂, h₂⟩ :=
    hkernels ⟨2, 1⟩ (kernel "marked" marks) (by decide +kernel) (by decide +kernel) rfl
  rw [if_neg (by simp [hfresh])] at h₁
  rw [if_pos hmarked] at h₂
  refine ⟨hrun, ⟨f₁, hf₁, h₁⟩, ⟨f₂, hf₂, h₂.1, fun hsites => ?_⟩, fun hmarks => ?_⟩
  · exact absurd (h₂.2.2.1 hsites) (by decide +kernel)
  · have hunmarked :=
      hall.1 hmarks ⟨2, 1⟩ (kernel "marked" marks) (by decide +kernel) (by decide +kernel) rfl
    exact absurd (hmarked.symm.trans hunmarked) (by decide)

open markedKernel in
/-- A kernel that has the mark from the start is still a kernel when the pass is over. -/
theorem markedKernel_remains : ∃ m m' : Module,
    (useSynthesisConventions false).apply m = (.ok ⟨⟩, m') ∧ ¬m.MarksKernels m' := by
  refine ⟨{ funcs := .ofList [kernel "k" marks] }, { funcs := .ofList [kernel "k" marks] }, ?_, ?_⟩
  · decide +kernel
  · intro h
    exact h.gone ⟨1, 1⟩ (kernel "k" marks) (by decide +kernel) (by decide +kernel) rfl

end ModuleM

end KernelIR
