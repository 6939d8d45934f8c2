import KernelIR.Proofs.Naming.Steps
import KernelIR.Proofs.Wrapper.Unwrapped
import Mathlib

/-!
# Names of definitions

Kernels get names made from their old ones, and then device functions get numbered names.  Each
step redefines one function, so that a function has its old name until its turn comes and keeps its
new one from then on.
-/

namespace KernelIR

namespace Module

variable {m m' m'' : Module} {id : FuncId} {f g : Func} {ids ids' : List FuncId}

/-- No functions but those of `ids` changed, and those have the prototypes that they had. -/
structure Touched (m : Module) (ids : List FuncId) (m' : Module) : Prop where
  same : ∀ id, id ∉ ids → m'.funcs.get? id = m.funcs.get? id
  prototype : ∀ id f, m.funcs.get? id = some f →
    ∃ g, m'.funcs.get? id = some g ∧ g.prototype = f.prototype
  globals : m'.globals = m.globals
  nodup : m.symbols.Nodup → m'.symbols.Nodup

theorem touched_nil (m : Module) : m.Touched [] m :=
  ⟨fun _ _ => rfl, fun _ f hf => ⟨f, hf, rfl⟩, rfl, fun hm => hm⟩

theorem Redefined.touched (h : m.Redefined id f g m') : m.Touched [id] m' := by
  refine ⟨fun id' hid' => h.updated.other id' (fun heq => hid' (heq ▸ List.mem_singleton_self _)),
    fun id' f' hf' => ?_, h.updated.globals, h.nodup⟩
  by_cases heq : id' = id
  · subst heq
    obtain rfl : f = f' := Option.some.inj (h.before.symm.trans hf')
    exact ⟨g, h.updated.self, h.prototype⟩
  · exact ⟨f', (h.updated.other id' heq).trans hf', rfl⟩

theorem Touched.append (h : m.Touched ids m') (h' : m'.Touched ids' m'') :
    m.Touched (ids ++ ids') m'' := by
  refine ⟨fun id hid => ?_, fun id f hf => ?_, h'.globals.trans h.globals,
    fun hm => h'.nodup (h.nodup hm)⟩
  · rw [List.mem_append, not_or] at hid
    exact (h'.same id hid.2).trans (h.same id hid.1)
  · obtain ⟨g, hg, hprototype⟩ := h.prototype id f hf
    obtain ⟨g', hg', hprototype'⟩ := h'.prototype id g hg
    exact ⟨g', hg', hprototype'.trans hprototype⟩

end Module

namespace KernelName

/-- The name is `xSYCL` and a number. -/
def IsHash (name : String) : Prop :=
  ∃ digits : List Char, digits ≠ [] ∧ (∀ c ∈ digits, c.isDigit = true) ∧
    name = stem ++ String.ofList digits

theorem isSynthesized_iff {name : String} : isSynthesized name = true ↔ IsHash name := by
  have hname : ∀ digits,
      name.toList = stem.toList ++ digits ↔ name = stem ++ String.ofList digits := by
    intro digits
    rw [← String.toList_inj, String.toList_append, String.toList_ofList]
  rw [isSynthesized, IsHash]
  split
  · next digits hdigits =>
      rw [afterStem?_eq_some_iff] at hdigits
      simp only [Bool.and_eq_true, Bool.not_eq_true', List.isEmpty_eq_false_iff, List.all_eq_true]
      constructor
      · rintro ⟨hne, hall⟩
        exact ⟨digits, hne, hall, (hname digits).1 hdigits⟩
      · rintro ⟨digits', hne, hall, heq⟩
        obtain rfl := List.append_cancel_left (hdigits.symm.trans ((hname digits').2 heq))
        exact ⟨hne, hall⟩
  · next hnone =>
      refine iff_of_false Bool.false_ne_true ?_
      rintro ⟨digits, -, -, heq⟩
      rw [afterStem?_eq_some_iff.2 ((hname digits).2 heq)] at hnone
      cases hnone

end KernelName

open ModuleM

namespace Pipeline

variable {m m' : Module} {id : FuncId} {ids : List FuncId} {d : Demangler}

/-- A kernel is called by a hash of its old name, or keeps a name that looks like such a hash. -/
def KernelNamed (old new : String) : Prop :=
  new = KernelName.synthesize old ∨ KernelName.IsHash old ∧ new = old

theorem decorateKernel_eq_ok {counts counts' : PipelineCounts}
    (h : (decorateKernel d counts id).apply m = (.ok counts', m')) :
    ∃ f g, m.Redefined id f g m' ∧ KernelNamed f.name g.name := by
  rw [decorateKernel] at h
  obtain ⟨_, m₁, hsize, h⟩ := bind_eq_ok h
  obtain ⟨f, metadata, hr⟩ := Module.attachWorkGroupSize_eq_ok (edit_eq_ok hsize)
  obtain ⟨_, m₂, hname, h⟩ := bind_eq_ok h
  obtain ⟨f₁, name, hr', hnamed⟩ := Module.setKernelName_eq_ok (edit_eq_ok hname)
  obtain rfl := hr.get?_eq hr'.before
  have hr := hr.trans hr'
  obtain ⟨_, m₃, hparams, h⟩ := bind_eq_ok h
  obtain ⟨f₂, hr'⟩ := nameParams_eq_ok hparams
  obtain rfl := hr.get?_eq hr'.before
  have hr := hr.trans hr'
  obtain ⟨_, m₄, hcollapse, h⟩ := bind_eq_ok h
  obtain ⟨body, hr'⟩ := collapseGenericCasts_eq_ok hr.updated.self hcollapse
  cases h
  refine ⟨f, _, hr.trans hr', ?_⟩
  rwa [KernelNamed, ← KernelName.isSynthesized_iff]

theorem nameDeviceFunction_eq_ok {state state' : DeviceNamer × PipelineCounts}
    (h : (nameDeviceFunction state id).apply m = (.ok state', m')) :
    ∃ f g n, m.Redefined id f g m' ∧ g.name = DeviceNamer.name n ∧ state.1.counter ≤ n ∧
      state'.1.counter = n + 1 := by
  rw [nameDeviceFunction] at h
  obtain ⟨_, m₁, hname, h⟩ := bind_eq_ok h
  obtain ⟨f, n, hr, hle, hcounter⟩ := rename_eq_ok hname
  obtain ⟨_, m₂, hparams, h⟩ := bind_eq_ok h
  obtain ⟨f₁, hr'⟩ := nameParams_eq_ok hparams
  obtain rfl := hr.get?_eq hr'.before
  have hr := hr.trans hr'
  obtain ⟨_, m₃, hcollapse, h⟩ := bind_eq_ok h
  obtain ⟨body, hr'⟩ := collapseGenericCasts_eq_ok hr.updated.self hcollapse
  cases h
  exact ⟨f, _, n, hr.trans hr', rfl, hle, hcounter⟩

theorem foldlM_decorateKernel {counts counts' : PipelineCounts} (hids : ids.Nodup)
    (h : (ids.foldlM (decorateKernel d) counts).apply m = (.ok counts', m')) :
    m.Touched ids m' ∧ ∀ id ∈ ids, ∃ f g, m.funcs.get? id = some f ∧
      m'.funcs.get? id = some g ∧ KernelNamed f.name g.name := by
  induction ids generalizing m counts with
  | nil =>
      cases h
      exact ⟨Module.touched_nil _, fun _ hid => absurd hid List.not_mem_nil⟩
  | cons id rest ih =>
      obtain ⟨hnotMem, hrest⟩ := List.nodup_cons.1 hids
      rw [List.foldlM_cons] at h
      obtain ⟨_, m₁, hstep, h⟩ := bind_eq_ok h
      obtain ⟨f, g, hr, hnamed⟩ := decorateKernel_eq_ok hstep
      obtain ⟨htouched, hnames⟩ := ih hrest h
      refine ⟨hr.touched.append htouched, fun id' hid' => ?_⟩
      rcases List.mem_cons.1 hid' with rfl | hid'
      · exact ⟨f, g, hr.before, (htouched.same _ hnotMem).trans hr.updated.self, hnamed⟩
      · obtain ⟨f', g', hf', hg', hnamed'⟩ := hnames id' hid'
        have hne : id' ≠ id := fun heq => hnotMem (heq ▸ hid')
        exact ⟨f', g', (hr.updated.other id' hne).symm.trans hf', hg', hnamed'⟩

/-- Numbers are handed out in the order of the functions. -/
theorem foldlM_nameDeviceFunction {state state' : DeviceNamer × PipelineCounts} (hids : ids.Nodup)
    (h : (ids.foldlM nameDeviceFunction state).apply m = (.ok state', m')) :
    m.Touched ids m' ∧ ∃ ns : List Nat, (∀ n ∈ ns, state.1.counter ≤ n) ∧ ns.Pairwise (· < ·) ∧
      List.Forall₂ (fun id n => ∃ g, m'.funcs.get? id = some g ∧ g.name = DeviceNamer.name n)
        ids ns := by
  induction ids generalizing m state with
  | nil =>
      cases h
      exact ⟨Module.touched_nil _, [], fun _ hn => absurd hn List.not_mem_nil, .nil, .nil⟩
  | cons id rest ih =>
      obtain ⟨hnotMem, hrest⟩ := List.nodup_cons.1 hids
      rw [List.foldlM_cons] at h
      obtain ⟨_, m₁, hstep, h⟩ := bind_eq_ok h
      obtain ⟨f, g, n, hr, hname, hle, hcounter⟩ := nameDeviceFunction_eq_ok hstep
      obtain ⟨htouched, ns, hge, hlt, hnames⟩ := ih hrest h
      rw [hcounter] at hge
      have hself := (htouched.same id hnotMem).trans hr.updated.self
      refine ⟨hr.touched.append htouched, n :: ns, fun k hk => ?_,
        List.pairwise_cons.2 ⟨hge, hlt⟩, .cons ⟨g, hself, hname⟩ hnames⟩
      rcases List.mem_cons.1 hk with rfl | hk
      · exact hle
      · exact Nat.le_trans hle (Nat.le_of_succ_le (hge k hk))

end Pipeline

theorem Func.isDeclaration_of_role? {f : Func} {mode : KernelMode}
    (h : f.role? mode = some .declaration) : f.isDeclaration = true := by
  grind [Func.role?]

namespace Module

variable {m : Module} {mode : KernelMode} {role role' : Role} {id : FuncId}

theorem nodup_withRole (m : Module) (mode : KernelMode) (role : Role) :
    (m.withRole mode role).Nodup :=
  m.funcs.nodup_ids.sublist (List.filter_sublist.map _)

theorem not_mem_withRole (h : id ∈ m.withRole mode role) (hne : role ≠ role') :
    id ∉ m.withRole mode role' := by
  intro h'
  obtain ⟨f, hf, hrole⟩ := mem_withRole_iff.1 h
  obtain ⟨f', hf', hrole'⟩ := mem_withRole_iff.1 h'
  obtain rfl : f = f' := Option.some.inj (hf.symm.trans hf')
  exact hne (Option.some.inj (hrole.symm.trans hrole'))

theorem not_mem_withRole_of_role?_eq_none {f : Func} (hf : m.funcs.get? id = some f)
    (hrole : f.role? mode = none) : id ∉ m.withRole mode role := by
  intro h
  obtain ⟨f', hf', hrole'⟩ := mem_withRole_iff.1 h
  obtain rfl : f = f' := Option.some.inj (hf.symm.trans hf')
  cases hrole.symm.trans hrole'

end Module

namespace Pipeline

/-- What the stage leaves of the prepared module: kernels and device functions have their new names,
and nothing else has changed. -/
theorem definitionsStage_eq_ok {pre named : Module} {d : Demangler} {mode : KernelMode}
    {preparation : Option PreparationCounts} {counts : PipelineCounts}
    (h : (definitionsStage d mode preparation pre).apply pre = (.ok counts, named)) :
    pre.Touched (pre.withRole mode .kernel ++ pre.withRole mode .deviceFunction) named ∧
    (∀ id ∈ pre.withRole mode .kernel, ∃ f g, pre.funcs.get? id = some f ∧
      named.funcs.get? id = some g ∧ KernelNamed f.name g.name) ∧
    ∃ ns : List Nat, ns.Pairwise (· < ·) ∧
      List.Forall₂ (fun id n => ∃ g, named.funcs.get? id = some g ∧ g.name = DeviceNamer.name n)
        (pre.withRole mode .deviceFunction) ns := by
  rw [definitionsStage] at h
  obtain ⟨_, m₁, hkernels, h⟩ := bind_eq_ok h
  obtain ⟨_, m₂, hdevice, h⟩ := bind_eq_ok h
  cases h
  obtain ⟨htouched, hnamed⟩ := foldlM_decorateKernel (pre.nodup_withRole mode .kernel) hkernels
  obtain ⟨htouched', ns, -, hlt, hnumbered⟩ :=
    foldlM_nameDeviceFunction (pre.nodup_withRole mode .deviceFunction) hdevice
  refine ⟨htouched.append htouched', fun id hid => ?_, ns, hlt, hnumbered⟩
  obtain ⟨f, g, hf, hg, hname⟩ := hnamed id hid
  exact ⟨f, g, hf, (htouched'.same id (Module.not_mem_withRole hid (by decide))).trans hg, hname⟩

/-- Declarations wait until the definitions have their names. -/
theorem get?_named_of_mem {pre named : Module} {d : Demangler} {mode : KernelMode}
    {preparation : Option PreparationCounts} {counts : PipelineCounts} {id : FuncId}
    (h : (definitionsStage d mode preparation pre).apply pre = (.ok counts, named))
    (hid : id ∈ pre.withRole mode .declaration) : named.funcs.get? id = pre.funcs.get? id := by
  refine (definitionsStage_eq_ok h).1.same id fun hmem => ?_
  rcases List.mem_append.1 hmem with hmem | hmem
  · exact Module.not_mem_withRole hid (by decide) hmem
  · exact Module.not_mem_withRole hid (by decide) hmem

end Pipeline

end KernelIR
