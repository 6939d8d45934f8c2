import KernelIR.Proofs.Naming.Tracked
import Mathlib

/-!
# Names over several runs

A kernel gets its name in the first run.  Later runs take the name for a hash and leave it, as long
as they find a kernel or a declaration under it.
-/

namespace KernelIR

namespace MangledName

theorem find?_eq_none {stem text : List Char} (htext : '_' ∉ text) : find? stem text = none := by
  induction text with
  | nil => rfl
  | cons c text ih =>
      have hhere : matchHere? stem (c :: text) = none := by
        rw [matchHere?]
        rintro rest hrest
        cases hrest
        exact htext List.mem_cons_self
      rw [find?, hhere, ih fun hmem => htext (List.mem_cons_of_mem _ hmem)]
      rfl

/-- Every length field comes after an underscore. -/
theorem normalize_eq_self {name : String} (hname : '_' ∉ name.toList) :
    normalize name = .ok name := by
  have hstrip : ∀ stem, strip stem name = .ok none := by
    intro stem
    rw [strip, find?_eq_none hname]
  rw [normalize]
  induction builtinStems with
  | nil => rfl
  | cons stem stems ih =>
      rw [List.foldlM_cons, hstrip]
      exact ih

end MangledName

namespace KernelName

theorem isHash_synthesize (name : String) : IsHash (synthesize name) := by
  refine ⟨Nat.toDigits 10 (uuid name).hash.toNat, Nat.toDigits_ne_nil, ?_, ?_⟩
  · exact fun c hc => Nat.isDigit_of_mem_toDigits (by decide) (by decide) hc
  · rw [synthesize, Nat.toString_eq_ofList_toDigits]

theorem IsHash.toList {name : String} (h : IsHash name) :
    ∃ digits : List Char, (∀ c ∈ digits, c.isDigit = true) ∧
      name.toList = stem.toList ++ digits := by
  obtain ⟨digits, -, hdigits, rfl⟩ := h
  exact ⟨digits, hdigits, by rw [String.toList_append, String.toList_ofList]⟩

theorem IsHash.startsWith {name : String} (h : IsHash name) : name.startsWith "llvm." = false := by
  obtain ⟨digits, -, htext⟩ := h.toList
  rw [← Bool.not_eq_true, String.startsWith_string_iff, htext]
  intro hprefix
  simp [stem] at hprefix

theorem IsHash.normalize {name : String} (h : IsHash name) :
    MangledName.normalize name = .ok name := by
  obtain ⟨digits, hdigits, htext⟩ := h.toList
  apply MangledName.normalize_eq_self
  rw [htext, List.mem_append]
  rintro (hmem | hmem)
  · exact absurd hmem (by decide)
  · exact absurd (hdigits _ hmem) (by decide)

end KernelName

namespace DeviceNamer

theorem toList_name (n : Nat) : (name n).toList = "sycl_func_".toList ++ (toString n).toList := by
  rw [name, String.toList_append]
  rfl

theorem startsWith_name (n : Nat) : (name n).startsWith "llvm." = false := by
  rw [← Bool.not_eq_true, String.startsWith_string_iff, toList_name]
  intro hprefix
  simp at hprefix

theorem not_isHash_name (n : Nat) : ¬KernelName.IsHash (name n) := by
  intro h
  obtain ⟨digits, -, htext⟩ := h.toList
  rw [toList_name] at htext
  simp [KernelName.stem] at htext

end DeviceNamer

namespace Config

/-- The flow of the runs that come after one on the module: the triple may have been set. -/
def laterFlow (c : Config) (m : Module) : Flow :=
  if c.flow = none ∧ c.setTriple = true then .spir else c.flowFor m

variable {c : Config} {m m' : Module}

theorem laterFlow_eq_spir (h : c.laterFlow m ≠ c.flowFor m) : c.laterFlow m = .spir := by
  rw [laterFlow] at h ⊢
  split_ifs with hset
  · rfl
  · rw [if_neg hset] at h
    exact absurd rfl h

theorem flowFor_of_triple
    (h : m'.triple = if c.setTriple = true then some "spir64" else m.triple) :
    c.flowFor m' = c.laterFlow m := by
  rw [laterFlow]
  unfold flowFor
  cases hflow : c.flow with
  | some flow => rw [if_neg fun hset => nomatch hset.1]
  | none =>
      rw [h]
      by_cases hset : c.setTriple = true
      · rw [if_pos hset, if_pos ⟨rfl, hset⟩]
        decide +kernel
      · rw [if_neg hset, if_neg fun hset' => hset hset'.2]

theorem laterFlow_of_flowFor (h : c.flowFor m' = c.laterFlow m) :
    c.laterFlow m' = c.laterFlow m := by
  by_cases hset : c.flow = none ∧ c.setTriple = true
  · rw [laterFlow, laterFlow, if_pos hset, if_pos hset]
  · rw [laterFlow, if_neg hset, h]

end Config

namespace Func

variable {f g : Func} {flow : Flow} {mode : KernelMode}

theorem Prepares.alike (h : f.Prepares flow g) {g' : Func} (halike : g.Alike g') :
    f.Prepares flow g' :=
  ⟨halike.isDeclaration.trans h.isDeclaration, fun hf => halike.isKernel (h.kernel hf),
    fun hflow hf => halike.conv.trans (h.device hflow hf)⟩

/-- A run that takes roles in the mode does not make a device function of `f`: it is a kernel, has
no body, or has the convention of no role and is not prepared. -/
def Settled (c : Config) (mode : KernelMode) (f : Func) : Prop :=
  f.isKernel mode = true ∨ f.isDeclaration = true ∨
    c.runPreparation = false ∧ f.conv ≠ .spirFunc

variable {c : Config}

theorem Settled.alike (h : f.Settled c mode) (halike : f.Alike g) : g.Settled c mode := by
  refine h.imp halike.isKernel (Or.imp (fun hdecl => ?_) (And.imp_right fun hconv => ?_))
  · rwa [halike.isDeclaration]
  · rwa [halike.conv]

theorem Settled.role?_ne (h : f.Settled c mode) : f.role? mode ≠ some .deviceFunction := by
  grind [Func.Settled, Func.role?]

/-- What the role of `f` became by the time at which roles are taken. -/
def Prepared (c : Config) (flow : Flow) (f g : Func) : Prop :=
  if c.runPreparation = true then f.Prepares flow g else f.Alike g

theorem Prepared.alike (h : f.Prepared c flow g) {g' : Func} (halike : g.Alike g') :
    f.Prepared c flow g' := by
  rw [Prepared] at h ⊢
  split_ifs at h ⊢
  · exact h.alike halike
  · exact h.trans halike

theorem Settled.prepared (h : f.Settled c flow.kernelMode) (hp : f.Prepared c flow g) :
    g.Settled c flow.kernelMode := by
  rw [Prepared] at hp
  split_ifs at hp with hprep
  · rcases h with hkernel | hdecl | ⟨hoff, -⟩
    · exact Or.inl (hp.kernel hkernel)
    · exact Or.inr (Or.inl (hp.isDeclaration.trans hdecl))
    · exact absurd hprep (by rw [hoff]; decide)
  · exact h.alike hp

/-- A defined function that is no kernel in a flow of device functions becomes one of them. -/
theorem prepared_of_not_settled (h : ¬f.Settled c .callingConvention) (hp : f.Prepared c .spir g) :
    g.conv = .spirFunc ∧ g.isDeclaration = false := by
  rw [Settled, not_or, not_or] at h
  obtain ⟨hkernel, hdecl, hconv⟩ := h
  rw [Bool.not_eq_true] at hdecl
  rw [Prepared] at hp
  split_ifs at hp with hprep
  · have hne : f.conv ≠ .spirKernel := fun heq => hkernel (isKernel_iff.2 (Or.inl heq))
    exact ⟨hp.device rfl hne, hp.isDeclaration.trans hdecl⟩
  · rw [Bool.not_eq_true] at hprep
    have hdevice : f.conv = .spirFunc := not_not.1 fun hne => hconv ⟨hprep, hne⟩
    exact ⟨hp.conv.trans hdevice, hp.isDeclaration.trans hdecl⟩

theorem not_settled_of_device (hconv : f.conv = .spirFunc) (hdecl : f.isDeclaration = false) :
    ¬f.Settled c .callingConvention := by
  rintro (hkernel | hdecl' | ⟨-, hne⟩)
  · rcases isKernel_iff.1 hkernel with hconv' | ⟨hmode, -⟩
    · exact nomatch hconv.symm.trans hconv'
    · exact nomatch hmode
  · exact nomatch hdecl.symm.trans hdecl'
  · exact hne hconv

theorem isKernel_of_role? (h : f.role? mode = some .kernel) : f.isKernel mode = true := by
  grind [Func.role?]

theorem role?_eq_deviceFunction (hconv : f.conv = .spirFunc) (hdecl : f.isDeclaration = false)
    (hname : f.name.startsWith "llvm." = false) :
    f.role? .callingConvention = some .deviceFunction := by
  grind [Func.role?, Func.isKernel, Func.isIntrinsic]

end Func

namespace Module

variable {t : Option String} {id : FuncId} {f g : Func} {names names' : String → Prop} {m : Module}

theorem tracked_none (h : m.triple = t) : m.Tracked t id none names := ⟨h, by simp⟩

theorem tracked_self (hf : m.funcs.get? id = some f) (hname : names f.name) :
    m.Tracked m.triple id (some f) names := by
  refine ⟨rfl, ?_⟩
  rintro _ ⟨⟩
  exact ⟨f, hf, Func.Alike.refl f, hname⟩

/-- What is known of the name when it is known. -/
theorem Tracked.of_name (h : m.Tracked t id (some f) names') (hg : m.funcs.get? id = some g)
    (hname : names g.name) : m.Tracked t id (some f) names := by
  refine ⟨h.triple, ?_⟩
  rintro _ ⟨⟩
  obtain ⟨g', hg', halike, -⟩ := h.func f rfl
  obtain rfl : g = g' := Option.some.inj (hg.symm.trans hg')
  exact ⟨g, hg, halike, hname⟩

end Module

namespace Pipeline

open ModuleM

variable {c : Config} {d : Demangler} {steps : Nat} {m pre named last m' : Module}
  {counts : PipelineCounts} {preparation : Option PreparationCounts} {id : FuncId} {f : Func}
  {t : Option String} {names : String → Prop}

theorem triple_prepareStageTracked (flow : Flow) {f : Option Func}
    (hnames : ∀ name, names name → name.startsWith "llvm." = false) :
    Triple (Module.Tracked t id f names) (prepareStage c flow d steps) fun _ m =>
      ∃ f', (∀ f₀ ∈ f, ∃ f₁ ∈ f', f₀.Prepared c flow f₁) ∧ m.Tracked t id f' names := by
  rw [prepareStage]
  split
  · next hprep =>
      refine (triple_prepareTracked flow c.afterO3 d steps hnames).bind fun _ =>
        Triple.pure fun m hm => ?_
      obtain ⟨f', hprepares, h⟩ := hm
      refine ⟨f', fun f₀ hf₀ => ?_, h⟩
      obtain ⟨f₁, hf₁, hprepares⟩ := hprepares f₀ hf₀
      refine ⟨f₁, hf₁, ?_⟩
      rwa [Func.Prepared, if_pos hprep]
  · next hprep =>
      refine Triple.pure fun _ h => ⟨f, fun f₀ hf₀ => ⟨f₀, hf₀, ?_⟩, h⟩
      rw [Func.Prepared, if_neg hprep]
      exact Func.Alike.refl f₀

theorem triple_of_prepareStage {flow : Flow}
    (hprepare : (prepareStage c flow d steps).apply m = (.ok preparation, pre)) :
    pre.triple = m.triple := by
  have hm : m.Tracked m.triple default none fun _ => False := Module.tracked_none rfl
  obtain ⟨_, -, h⟩ :=
    triple_prepareStageTracked flow (fun _ h => h.elim) m _ pre hm hprepare
  exact h.triple

/-- The preparation keeps the names of all functions but intrinsics. -/
theorem exists_prepared {flow : Flow}
    (hprepare : (prepareStage c flow d steps).apply m = (.ok preparation, pre))
    (hf : m.funcs.get? id = some f) (hname : f.name.startsWith "llvm." = false) :
    ∃ g, pre.funcs.get? id = some g ∧ g.name = f.name ∧ f.Prepared c flow g := by
  have hm : m.Tracked m.triple id (some f) (· = f.name) := Module.tracked_self hf rfl
  have hnames : ∀ name, name = f.name → name.startsWith "llvm." = false := by
    rintro _ rfl
    exact hname
  obtain ⟨f', hprepares, h⟩ := triple_prepareStageTracked flow hnames m _ pre hm hprepare
  obtain ⟨f₁, hf₁, hf₁'⟩ := hprepares f rfl
  obtain ⟨g, hg, halike, hname⟩ := h.func f₁ hf₁
  exact ⟨g, hg, hname, hf₁'.alike halike⟩

theorem tracked_ending (huniform : c.uniformConv = none) {f : Option Func} {ids : List FuncId}
    {bound : Nat} (h : named.Tracked t id f names)
    (hnames : id ∈ ids → ∀ name, names name → MangledName.normalize name = .ok name)
    (hbind : (bindDeclarations ids).apply named = (.ok bound, last))
    (hfinish : (finish c).apply last = (.ok (), m')) :
    m'.Tracked (if c.setTriple = true then some "spir64" else t) id f names := by
  have hlast := tracked_bindDeclarations ids hnames named _ last h hbind
  exact triple_finish huniform last _ m' hlast hfinish

/-- A definition has its name when declarations are bound. -/
theorem tracked_of_role {mode : KernelMode} {role : Role} {g : Func} (hne : role ≠ .declaration)
    (huniform : c.uniformConv = none) {bound : Nat} {counts' : PipelineCounts}
    (hf : pre.funcs.get? id = some f) (hrole : f.role? mode = some role)
    (hdefinitions : (definitionsStage d mode preparation pre).apply pre = (.ok counts', named))
    (hbind : (bindDeclarations (pre.withRole mode .declaration)).apply named = (.ok bound, last))
    (hfinish : (finish c).apply last = (.ok (), m')) (hg : named.funcs.get? id = some g)
    (hname : names g.name) :
    m'.Tracked (if c.setTriple = true then some "spir64" else pre.triple) id (some f) names := by
  have hnamed : named.Tracked pre.triple id (some f) fun _ => True :=
    tracked_definitionsStage d mode preparation pre (fun _ _ _ => Or.inr trivial)
      (fun _ _ => trivial) pre _ named (Module.tracked_self hf trivial) hdefinitions
  refine tracked_ending huniform (hnamed.of_name hg hname) (fun hid => ?_) hbind hfinish
  exact absurd hid (Module.not_mem_withRole (Module.mem_withRole_iff.2 ⟨f, hf, hrole⟩) hne)

/-- A run sets the triple or leaves it. -/
theorem flowFor_run (huniform : c.uniformConv = none)
    (hrun : (run c d steps).apply m = (.ok counts, m')) : c.flowFor m' = c.laterFlow m := by
  obtain ⟨_, pre, _, named, _, last, hprepare, hdefinitions, hbind, hfinish⟩ := run_eq_ok hrun
  have hnamed : named.Tracked pre.triple default none fun _ => True :=
    tracked_definitionsStage d _ _ pre (fun _ _ _ => Or.inr trivial) (fun _ _ => trivial)
      pre _ named (Module.tracked_none rfl) hdefinitions
  have hnone : named.Tracked pre.triple default none fun _ => False :=
    Module.tracked_none hnamed.triple
  have hlast := tracked_ending huniform hnone (fun _ _ h => h.elim) hbind hfinish
  apply Config.flowFor_of_triple
  rw [hlast.triple, triple_of_prepareStage hprepare]

theorem KernelNamed.isHash {old new : String} (h : KernelNamed old new) :
    KernelName.IsHash new := by
  rcases h with heq | ⟨hhash, heq⟩
  · rw [heq]
    exact KernelName.isHash_synthesize old
  · rwa [heq]

/-- A kernel is called by a hash afterwards and is a kernel still, unless the flow has changed. -/
theorem kernel_run (huniform : c.uniformConv = none)
    (hprepare : (prepareStage c (c.flowFor m) d steps).apply m = (.ok preparation, pre))
    (hkernel : id ∈ pre.withRole (c.flowFor m).kernelMode .kernel)
    (hrun : (run c d steps).apply m = (.ok counts, m')) :
    ∃ g, m'.funcs.get? id = some g ∧ KernelName.IsHash g.name ∧
      g.isKernel (c.flowFor m).kernelMode = true := by
  obtain ⟨_, named, _, last, hdefinitions, hbind, hfinish⟩ := run_eq_ok_of_prepare hprepare hrun
  obtain ⟨-, hkernels, -⟩ := definitionsStage_eq_ok hdefinitions
  obtain ⟨f, g, hf, hg, hnamed⟩ := hkernels id hkernel
  obtain ⟨f', hf', hrole⟩ := Module.mem_withRole_iff.1 hkernel
  obtain rfl : f = f' := Option.some.inj (hf.symm.trans hf')
  have hlast := tracked_of_role (by decide) huniform hf hrole hdefinitions hbind hfinish hg
    hnamed.isHash
  obtain ⟨g', hg', halike, hname⟩ := hlast.func f rfl
  exact ⟨g', hg', hname, halike.isKernel (Func.isKernel_of_role? hrole)⟩

/-- A run keeps the hash that it does not take for the name of a device function. -/
theorem settled_run (huniform : c.uniformConv = none)
    (hrun : (run c d steps).apply m = (.ok counts, m')) (hf : m.funcs.get? id = some f)
    (hhash : KernelName.IsHash f.name) (hsettled : f.Settled c (c.flowFor m).kernelMode) :
    ∃ g, m'.funcs.get? id = some g ∧ g.name = f.name ∧
      g.Settled c (c.flowFor m).kernelMode := by
  obtain ⟨_, pre, _, named, _, last, hprepare, hdefinitions, hbind, hfinish⟩ := run_eq_ok hrun
  obtain ⟨g, hg, hname, hprepared⟩ := exists_prepared hprepare hf hhash.startsWith
  have hsettled' : g.Settled c (c.flowFor m).kernelMode := hsettled.prepared hprepared
  have hnamed : named.Tracked pre.triple id (some g) (· = f.name) := by
    refine tracked_definitionsStage d _ _ pre (fun _ name hname => ?_) (fun hid => ?_)
      pre _ named (Module.tracked_self hg hname) hdefinitions
    · rw [hname]
      exact Or.inl (KernelName.isSynthesized_iff.2 hhash)
    · obtain ⟨g', hg', hrole⟩ := Module.mem_withRole_iff.1 hid
      obtain rfl : g = g' := Option.some.inj (hg.symm.trans hg')
      exact absurd hrole hsettled'.role?_ne
  have hlast := tracked_ending huniform hnamed (fun _ name hname => hname ▸ hhash.normalize)
    hbind hfinish
  obtain ⟨g', hg', halike, hname'⟩ := hlast.func g rfl
  exact ⟨g', hg', hname', hsettled'.alike halike⟩

/-- Otherwise the function gets a numbered name, in every run anew. -/
theorem not_settled_run (huniform : c.uniformConv = none)
    (hrun : (run c d steps).apply m = (.ok counts, m')) (hf : m.funcs.get? id = some f)
    (hname : f.name.startsWith "llvm." = false) (hflow : c.flowFor m = .spir)
    (hsettled : ¬f.Settled c .callingConvention) :
    ∃ g n, m'.funcs.get? id = some g ∧ g.name = DeviceNamer.name n ∧
      ¬g.Settled c .callingConvention := by
  obtain ⟨_, pre, _, named, _, last, hprepare, hdefinitions, hbind, hfinish⟩ := run_eq_ok hrun
  rw [hflow] at hprepare
  rw [hflow, Flow.kernelMode] at hdefinitions hbind
  -- The role is that of the prepared function, which is no intrinsic because its name was kept.
  obtain ⟨f', hf', hname', hprepared⟩ := exists_prepared hprepare hf hname
  obtain ⟨hconv, hdecl⟩ := Func.prepared_of_not_settled hsettled hprepared
  have hrole : f'.role? .callingConvention = some .deviceFunction :=
    Func.role?_eq_deviceFunction hconv hdecl (by rw [hname', hname])
  obtain ⟨-, -, ns, -, hnumbered⟩ := definitionsStage_eq_ok hdefinitions
  obtain ⟨i, hi, hid⟩ := List.getElem_of_mem (Module.mem_withRole_iff.2 ⟨f', hf', hrole⟩)
  obtain ⟨g, hg, hnumber⟩ := hnumbered.get hi (hnumbered.length_eq ▸ hi)
  rw [List.get_eq_getElem, hid] at hg
  have hlast : m'.Tracked (if c.setTriple = true then some "spir64" else pre.triple) id (some f')
      fun name => ∃ n, name = DeviceNamer.name n :=
    tracked_of_role (by decide) huniform hf' hrole hdefinitions hbind hfinish hg ⟨_, hnumber⟩
  obtain ⟨g', hg', halike, n, hname'⟩ := hlast.func f' rfl
  refine ⟨g', n, hg', hname', Func.not_settled_of_device ?_ ?_⟩
  · rw [halike.conv, hconv]
  · rw [halike.isDeclaration, hdecl]

/-- A further run with the configuration succeeds. -/
def Reruns (c : Config) (m m' : Module) : Prop :=
  ∃ d steps counts, (run c d steps).apply m = (.ok counts, m')

variable {m₁ : Module}

/-- What every run makes of the function, as long as the flow is the one of later runs. -/
theorem of_reruns {P Q : Func → Prop} (huniform : c.uniformConv = none) (hQP : ∀ g, Q g → P g)
    (hstep : ∀ {m₁ m₂ g}, Reruns c m₁ m₂ → c.flowFor m₁ = c.laterFlow m →
      m₁.funcs.get? id = some g → P g → ∃ g', m₂.funcs.get? id = some g' ∧ Q g')
    (hflow : c.flowFor m₁ = c.laterFlow m) (hf : m₁.funcs.get? id = some f) (hP : P f)
    (hreruns : Relation.TransGen (Reruns c) m₁ m') :
    ∃ g, m'.funcs.get? id = some g ∧ Q g := by
  have hnext : ∀ {m₁ m₂}, Reruns c m₁ m₂ → c.flowFor m₁ = c.laterFlow m →
      c.flowFor m₂ = c.laterFlow m := by
    rintro m₁ m₂ ⟨_, _, _, hrun⟩ hflow
    rw [flowFor_run huniform hrun, Config.laterFlow_of_flowFor hflow]
  have hboth : c.flowFor m' = c.laterFlow m ∧ ∃ g, m'.funcs.get? id = some g ∧ Q g := by
    induction hreruns with
    | single hrerun => exact ⟨hnext hrerun hflow, hstep hrerun hflow hf hP⟩
    | tail _ hrerun ih =>
        obtain ⟨hflow', g, hg, hQ⟩ := ih
        exact ⟨hnext hrerun hflow', hstep hrerun hflow' hg (hQP g hQ)⟩
  exact hboth.2

theorem settled_reruns (huniform : c.uniformConv = none) (hflow : c.flowFor m₁ = c.laterFlow m)
    (hf : m₁.funcs.get? id = some f) (hhash : KernelName.IsHash f.name)
    (hsettled : f.Settled c (c.laterFlow m).kernelMode)
    (hreruns : Relation.TransGen (Reruns c) m₁ m') :
    ∃ g, m'.funcs.get? id = some g ∧ g.name = f.name := by
  have hstep : ∀ {m₁ m₂ : Module} {g : Func}, Reruns c m₁ m₂ → c.flowFor m₁ = c.laterFlow m →
      m₁.funcs.get? id = some g → g.name = f.name ∧ g.Settled c (c.laterFlow m).kernelMode →
      ∃ g', m₂.funcs.get? id = some g' ∧ g'.name = f.name ∧
        g'.Settled c (c.laterFlow m).kernelMode := by
    rintro m₁ m₂ g ⟨d, steps, counts, hrun⟩ hflow hg ⟨hname, hsettled⟩
    rw [← hflow] at hsettled ⊢
    rw [← hname] at hhash ⊢
    exact settled_run huniform hrun hg hhash hsettled
  obtain ⟨g, hg, hname, -⟩ :=
    of_reruns huniform (fun _ h => h) hstep hflow hf ⟨rfl, hsettled⟩ hreruns
  exact ⟨g, hg, hname⟩

theorem not_settled_reruns (huniform : c.uniformConv = none) (hlater : c.laterFlow m = .spir)
    (hflow : c.flowFor m₁ = c.laterFlow m) (hf : m₁.funcs.get? id = some f)
    (hname : f.name.startsWith "llvm." = false) (hsettled : ¬f.Settled c .callingConvention)
    (hreruns : Relation.TransGen (Reruns c) m₁ m') :
    ∃ g n, m'.funcs.get? id = some g ∧ g.name = DeviceNamer.name n := by
  have hstep : ∀ {m₁ m₂ : Module} {g : Func}, Reruns c m₁ m₂ → c.flowFor m₁ = c.laterFlow m →
      m₁.funcs.get? id = some g →
      g.name.startsWith "llvm." = false ∧ ¬g.Settled c .callingConvention →
      ∃ g', m₂.funcs.get? id = some g' ∧ (∃ n, g'.name = DeviceNamer.name n) ∧
        ¬g'.Settled c .callingConvention := by
    rintro m₁ m₂ g ⟨d, steps, counts, hrun⟩ hflow hg ⟨hname, hsettled⟩
    obtain ⟨g', n, hg', hname', hsettled'⟩ :=
      not_settled_run huniform hrun hg hname (hflow.trans hlater) hsettled
    exact ⟨g', hg', ⟨n, hname'⟩, hsettled'⟩
  have hnumbered : ∀ g : Func, (∃ n, g.name = DeviceNamer.name n) ∧
      ¬g.Settled c .callingConvention →
      g.name.startsWith "llvm." = false ∧ ¬g.Settled c .callingConvention := by
    rintro g ⟨⟨n, hname⟩, hsettled⟩
    exact ⟨hname ▸ DeviceNamer.startsWith_name n, hsettled⟩
  obtain ⟨g, hg, ⟨n, hname'⟩, -⟩ :=
    of_reruns huniform hnumbered hstep hflow hf ⟨hname, hsettled⟩ hreruns
  exact ⟨g, n, hg, hname'⟩

/-- Whether a kernel keeps the name that a run gave it is decided when the run is over.  It does if
the runs that follow are for the same flow.  A triple that was set makes them runs for device
functions: then it does if its convention still is that of kernels, if it has no body, or if it has
the convention of no role and no preparation gives it another. -/
theorem kernelName_reruns (huniform : c.uniformConv = none)
    (hprepare : (prepareStage c (c.flowFor m) d steps).apply m = (.ok preparation, pre))
    (hkernel : id ∈ pre.withRole (c.flowFor m).kernelMode .kernel)
    (hrun : (run c d steps).apply m = (.ok counts, m₁))
    (hreruns : Relation.TransGen (Reruns c) m₁ m') :
    ∃ f₁ f', m₁.funcs.get? id = some f₁ ∧ m'.funcs.get? id = some f' ∧
      KernelName.IsHash f₁.name ∧
      (f'.name = f₁.name ↔ c.laterFlow m = c.flowFor m ∨ f₁.conv = .spirKernel ∨
        f₁.isDeclaration = true ∨ c.runPreparation = false ∧ f₁.conv ≠ .spirFunc) := by
  obtain ⟨f₁, hf₁, hhash, hkernel₁⟩ := kernel_run huniform hprepare hkernel hrun
  -- From here on the flow is fixed, and with it whether the function is settled.
  have hflow : c.flowFor m₁ = c.laterFlow m := flowFor_run huniform hrun
  by_cases hsettled : f₁.Settled c (c.laterFlow m).kernelMode
  · obtain ⟨f', hf', hname⟩ := settled_reruns huniform hflow hf₁ hhash hsettled hreruns
    refine ⟨f₁, f', hf₁, hf', hhash, iff_of_true hname ?_⟩
    by_cases hsame : c.laterFlow m = c.flowFor m
    · exact Or.inl hsame
    · rw [Config.laterFlow_eq_spir hsame] at hsettled
      refine Or.inr (hsettled.imp_left fun hk => ?_)
      exact (Func.isKernel_iff.1 hk).resolve_right fun h => nomatch h.1
  · have hchanged : c.laterFlow m ≠ c.flowFor m := by
      intro hsame
      rw [← hsame] at hkernel₁
      exact hsettled (Or.inl hkernel₁)
    have hlater : c.laterFlow m = .spir := Config.laterFlow_eq_spir hchanged
    rw [hlater] at hsettled
    obtain ⟨f', n, hf', hname⟩ := not_settled_reruns huniform hlater hflow hf₁ hhash.startsWith
      hsettled hreruns
    refine ⟨f₁, f', hf₁, hf', hhash, iff_of_false ?_ ?_⟩
    · intro heq
      exact DeviceNamer.not_isHash_name n (hname ▸ heq ▸ hhash)
    · rintro (hsame | hconv | hrest)
      · exact hchanged hsame
      · exact hsettled (Or.inl (Func.isKernel_iff.2 (Or.inl hconv)))
      · exact hsettled (Or.inr hrest)

theorem exists_ok_of_isOk {α : Type} {x : ModuleM α} (h : (x.apply m).1.isOk = true) :
    ∃ a, x.apply m = (.ok a, (x.apply m).2) := by
  cases hx : (x.apply m).1 with
  | error e =>
      rw [hx] at h
      cases h
  | ok a => exact ⟨a, Prod.ext hx rfl⟩

namespace retargeted

/-- A kernel in a module for synthesis. -/
def source : Module where
  funcs := .ofList [{
    name := "copy"
    params := []
    retTy := .void
    body := .ofList [(.entry, ⟨[], .ret none⟩)]
    conv := .spirKernel }]
  triple := some "fpga64_hls_hw-xilinx-linux"

def kernel : FuncId := ⟨1, 1⟩

def prepared (c : Config) : Module := ((prepareStage c .hls .none 10).apply source).2

def once (c : Config) : Module := ((run c .none 10).apply source).2

def twice (c : Config) : Module := ((run c .none 10).apply (once c)).2

end retargeted

open retargeted in
theorem retargeted_keeps_name :
    ∃ f₁ f', (once {}).funcs.get? kernel = some f₁ ∧ (twice {}).funcs.get? kernel = some f' ∧
      KernelName.IsHash f₁.name ∧
      (f'.name = f₁.name ↔ Config.laterFlow {} source = Config.flowFor {} source ∨
        f₁.conv = .spirKernel ∨ f₁.isDeclaration = true ∨
          Config.runPreparation {} = false ∧ f₁.conv ≠ .spirFunc) := by
  have hprepared : ((prepareStage {} .hls .none 10).apply source).1.isOk = true := by
    decide +kernel
  have hfirst : ((run {} .none 10).apply source).1.isOk = true := by decide +kernel
  have hsecond : ((run {} .none 10).apply (once {})).1.isOk = true := by decide +kernel
  obtain ⟨preparation, hprepare⟩ := exists_ok_of_isOk hprepared
  obtain ⟨counts, hrun⟩ := exists_ok_of_isOk hfirst
  obtain ⟨counts', hrerun⟩ := exists_ok_of_isOk hsecond
  have hkernel : kernel ∈ (prepared {}).withRole .topFunctionAttribute .kernel := by
    decide +kernel
  exact kernelName_reruns (m := source) rfl hprepare hkernel hrun (.single ⟨_, _, _, hrerun⟩)

open retargeted in
/-- The first run is for synthesis and sets the triple, so that the second finds a device function
under the name that the first made. -/
theorem retargeted_loses_name :
    ∃ c : Config, c.uniformConv = none ∧
      (∃ preparation, (prepareStage c (c.flowFor source) .none 10).apply source =
        (.ok preparation, prepared c)) ∧
      kernel ∈ (prepared c).withRole (c.flowFor source).kernelMode .kernel ∧
      (∃ counts, (run c .none 10).apply source = (.ok counts, once c)) ∧
      (∃ counts, (run c .none 10).apply (once c) = (.ok counts, twice c)) ∧
      ((once c).funcs.get? kernel).map (·.name) = some "xSYCL1311135945919181961" ∧
      ((twice c).funcs.get? kernel).map (·.name) = some "sycl_func_0" := by
  refine ⟨{ setTriple := true }, rfl, exists_ok_of_isOk ?_, ?_, exists_ok_of_isOk ?_,
    exists_ok_of_isOk ?_, ?_, ?_⟩
  all_goals decide +kernel

end Pipeline

end KernelIR
