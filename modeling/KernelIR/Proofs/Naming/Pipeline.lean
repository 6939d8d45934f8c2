import KernelIR.Proofs.Naming.Declarations
import KernelIR.Proofs.Naming.Definitions
import Mathlib

/-!
# Names after a run

Kernels, device functions and declarations are named one kind after the other, and each kind leaves
the names of the others alone.  So the names that a run ends with are told by the module whose roles
it takes, and by what the declarations were merged into.
-/

namespace KernelIR

open ModuleM MangledName

/-- What a function is called, the types that it takes and gives, and what it mentions. -/
def Func.outline (f : Func) : String × (Ty × List Ty) × List Operand :=
  (f.name, f.prototype, f.mentions)

namespace Module

variable {m m₁ m' m'' : Module} {id : FuncId} {f : Func}

/-- The functions under each handle have one outline, and globals are the same. -/
structure SameOutline (m m' : Module) : Prop where
  funcs : ∀ id, (m'.funcs.get? id).map Func.outline = (m.funcs.get? id).map Func.outline
  globals : m'.globals = m.globals

theorem sameOutline_refl (m : Module) : m.SameOutline m := ⟨fun _ => rfl, rfl⟩

theorem SameOutline.trans (h : m.SameOutline m') (h' : m'.SameOutline m'') : m.SameOutline m'' :=
  ⟨fun id => (h'.funcs id).trans (h.funcs id), h'.globals.trans h.globals⟩

theorem SameOutline.get?_eq_some (h : m.SameOutline m') (hf : m.funcs.get? id = some f) :
    ∃ g, m'.funcs.get? id = some g ∧ g.name = f.name ∧ g.prototype = f.prototype ∧
      g.mentions = f.mentions := by
  obtain ⟨g, hg, houtline⟩ := Option.map_eq_some_iff.1 ((h.funcs id).trans (congrArg _ hf))
  obtain ⟨hname, hrest⟩ := Prod.mk.inj houtline
  exact ⟨g, hg, hname, Prod.mk.inj hrest⟩

theorem SameOutline.get?_eq_none (h : m.SameOutline m') (hid : m.funcs.get? id = none) :
    m'.funcs.get? id = none :=
  Option.map_eq_none_iff.1 ((h.funcs id).trans (congrArg _ hid))

theorem SameOutline.nodup_symbols (h : m.SameOutline m') (hm : m.symbols.Nodup) :
    m'.symbols.Nodup := by
  refine nodup_symbols_of_names hm (fun id g hg => ?_) fun id g hg => ?_
  · obtain ⟨f, hf, houtline⟩ :=
      Option.map_eq_some_iff.1 ((h.funcs id).symm.trans (congrArg _ hg))
    exact ⟨f, hf, congrArg Prod.fst houtline⟩
  · exact ⟨g, h.globals ▸ hg, rfl⟩

theorem sameOutline_setConv (m : Module) (id : FuncId) (conv : CallConv) :
    m.SameOutline (m.setConv id conv).2 := by
  have houtline : Func.outline ∘ Func.mapBlocks (Block.setCallConv id conv) = Func.outline :=
    funext fun f => congrArg (f.name, f.prototype, ·) (f.mentions_setCallConv id conv)
  refine ⟨fun id' => ?_, rfl⟩
  rw [setConv, mapFuncs, Arena.get?_map, Option.map_map, houtline]
  by_cases hid : id' = id
  · rw [hid, modifyFunc, Arena.get?_modify_self, Option.map_map]
    rfl
  · rw [modifyFunc, Arena.get?_modify_of_ne _ hid]

/-- Binding is judged by outlines. -/
theorem Bound.sameOutline {ids : List FuncId} {ρ : FuncId → FuncId} (h : m.Bound ids ρ m₁)
    (ho : m₁.SameOutline m') : m.Bound ids ρ m' := by
  refine ⟨h.fixed, fun id f hf hρ => ?_, fun id f hf hρ => ?_, fun id => ?_,
    fun hm => ho.nodup_symbols (h.nodup hm)⟩
  · obtain ⟨g, hg, hfollows, hname⟩ := h.kept id f hf hρ
    obtain ⟨g', hg', hname', hprototype, hmentions⟩ := ho.get?_eq_some hg
    refine ⟨g', hg', ⟨hprototype.trans hfollows.prototype, hmentions.trans hfollows.mentions⟩, ?_⟩
    rwa [hname']
  · obtain ⟨hgone, g, hg, hprototype, hname⟩ := h.merged id f hf hρ
    obtain ⟨g', hg', hname', hprototype', -⟩ := ho.get?_eq_some hg
    exact ⟨ho.get?_eq_none hgone, g', hg', hprototype'.trans hprototype, hname'.symm ▸ hname⟩
  · rw [ho.globals, h.globals id]

end Module

namespace ModuleM

theorem keeps_sameOutline_finish (m : Module) (c : Config) :
    Keeps m.SameOutline (Pipeline.finish c) := by
  refine keeps_finish (fun m₁ m₂ hfuncs hglobals h => ?_) (fun id conv => ?_) c
  · exact ⟨fun id => by rw [hfuncs, h.funcs], hglobals.trans h.globals⟩
  · exact (Triple.keeps_func id).bind fun _ => Triple.change fun m₁ h =>
      h.trans (m₁.sameOutline_setConv id conv)

end ModuleM

namespace Pipeline

/-- The names that a run ends with.  Roles were taken in `pre`, definitions had their names in
`named`, and `ρ` tells where the references of each function went from there. -/
structure FinalNames (mode : KernelMode) (pre named : Module) (ρ : FuncId → FuncId)
    (m' : Module) : Prop where
  kernels : ∀ id ∈ pre.withRole mode .kernel, ∃ f g, pre.funcs.get? id = some f ∧
    m'.funcs.get? id = some g ∧ KernelNamed f.name g.name
  deviceFunctions : ∃ ns : List Nat, ns.Pairwise (· < ·) ∧
    List.Forall₂ (fun id n => ∃ g, m'.funcs.get? id = some g ∧ g.name = DeviceNamer.name n)
      (pre.withRole mode .deviceFunction) ns
  declarations : ∀ id ∈ pre.withRole mode .declaration, ∃ f g, pre.funcs.get? id = some f ∧
    m'.funcs.get? (ρ id) = some g ∧ normalize f.name = .ok g.name ∧
      (ρ id = id ∨ m'.funcs.get? id = none ∧ g.prototype = f.prototype)
  others : ∀ id f, pre.funcs.get? id = some f → f.role? mode = none →
    ∃ g, m'.funcs.get? id = some g ∧ g.name = f.name
  globals : ∀ id g, pre.globals.get? id = some g → ∃ g', m'.globals.get? id = some g' ∧
    g'.name = g.name ∧ g'.listed = g.listed.map ρ
  mentions : ∀ id f, named.funcs.get? id = some f → f.isDeclaration = false →
    ∃ g, m'.funcs.get? id = some g ∧ g.mentions = f.mentions.map (.mapFunc ρ)
  fixed : ∀ id, id ∉ pre.withRole mode .declaration → ρ id = id
  unique : m'.symbols.Nodup

variable {c : Config} {d : Demangler} {steps : Nat} {m pre m' : Module} {counts : PipelineCounts}
  {preparation : Option PreparationCounts}

/-- Definitions have their names when declarations are bound, and keep them. -/
theorem finalNames_of_bound {mode : KernelMode} {named : Module} {counts' : PipelineCounts}
    {ρ : FuncId → FuncId} (hunique : pre.symbols.Nodup)
    (hdefinitions : (definitionsStage d mode preparation pre).apply pre = (.ok counts', named))
    (hbound : named.Bound (pre.withRole mode .declaration) ρ m') :
    FinalNames mode pre named ρ m' := by
  obtain ⟨htouched, hkernels, ns, hlt, hnumbered⟩ := definitionsStage_eq_ok hdefinitions
  constructor
  case kernels =>
    intro id hid
    obtain ⟨f, g, hf, hg, hnamed⟩ := hkernels id hid
    obtain ⟨g', hg', -, hname⟩ := hbound.unlisted (Module.not_mem_withRole hid (by decide)) hg
    exact ⟨f, g', hf, hg', hname ▸ hnamed⟩
  case deviceFunctions =>
    have hdefined : ∀ id ∈ pre.withRole mode .deviceFunction, id ∉ pre.withRole mode .declaration :=
      fun _ hid => Module.not_mem_withRole hid (by decide)
    have hnumbered := (List.forall₂_and_left _ _).2 ⟨hdefined, hnumbered⟩
    refine ⟨ns, hlt, hnumbered.imp fun id n ⟨hid, g, hg, hname⟩ => ?_⟩
    obtain ⟨g', hg', -, hname'⟩ := hbound.unlisted hid hg
    exact ⟨g', hg', hname'.trans hname⟩
  case declarations =>
    intro id hid
    obtain ⟨f, hf, -⟩ := Module.mem_withRole_iff.1 hid
    have hf' := (get?_named_of_mem hdefinitions hid).trans hf
    by_cases hρ : ρ id = id
    · obtain ⟨g, hg, -, hname⟩ := hbound.kept id f hf' hρ
      rw [if_pos hid] at hname
      exact ⟨f, g, hf, hρ.symm ▸ hg, hname, Or.inl hρ⟩
    · obtain ⟨hgone, g, hg, hprototype, hname⟩ := hbound.merged id f hf' hρ
      exact ⟨f, g, hf, hg, hname, Or.inr ⟨hgone, hprototype⟩⟩
  case others =>
    intro id f hf hrole
    have hnone : ∀ role, id ∉ pre.withRole mode role :=
      fun _ => Module.not_mem_withRole_of_role?_eq_none hf hrole
    have hf' := (htouched.same id fun hmem =>
      (List.mem_append.1 hmem).elim (hnone .kernel) (hnone .deviceFunction)).trans hf
    obtain ⟨g, hg, -, hname⟩ := hbound.unlisted (hnone .declaration) hf'
    exact ⟨g, hg, hname⟩
  case globals =>
    intro id g hg
    have hg' := hbound.globals id
    rw [htouched.globals, hg] at hg'
    exact ⟨g.mapFuncs ρ, hg', g.name_mapFuncs ρ, g.listed_mapFuncs ρ⟩
  case mentions =>
    intro id f hf hbody
    have hid : id ∉ pre.withRole mode .declaration := by
      intro hid
      have hf' := (get?_named_of_mem hdefinitions hid).symm.trans hf
      obtain ⟨f', hf'', hrole⟩ := Module.mem_withRole_iff.1 hid
      obtain rfl : f = f' := Option.some.inj (hf'.symm.trans hf'')
      exact Bool.false_ne_true (hbody.symm.trans (Func.isDeclaration_of_role? hrole))
    obtain ⟨g, hg, hfollows, -⟩ := hbound.unlisted hid hf
    exact ⟨g, hg, hfollows.mentions⟩
  case fixed => exact hbound.fixed
  case unique => exact hbound.nodup (htouched.nodup hunique)

/-- A run that succeeds leaves the names that the roles call for. -/
theorem finalNames_run
    (hprepare : (prepareStage c (c.flowFor m) d steps).apply m = (.ok preparation, pre))
    (hunique : pre.symbols.Nodup)
    (hnormalizable : pre.Normalizable (pre.withRole (c.flowFor m).kernelMode .declaration))
    (hrun : (run c d steps).apply m = (.ok counts, m')) :
    ∃ counts' named ρ,
      (definitionsStage d (c.flowFor m).kernelMode preparation pre).apply pre =
        (.ok counts', named) ∧
      FinalNames (c.flowFor m).kernelMode pre named ρ m' := by
  obtain ⟨counts', named, _, last, hdefinitions, hbind, hfinish⟩ :=
    run_eq_ok_of_prepare hprepare hrun
  have hsame : ∀ id ∈ pre.withRole (c.flowFor m).kernelMode .declaration,
      named.funcs.get? id = pre.funcs.get? id := fun _ => get?_named_of_mem hdefinitions
  obtain ⟨ρ, hbound⟩ := bindDeclarations_eq_ok (pre.nodup_withRole _ .declaration)
    (fun id hid => by
      obtain ⟨f, hf, -⟩ := Module.mem_withRole_iff.1 hid
      exact ⟨f, (hsame id hid).trans hf⟩)
    (fun id hid f hf => hnormalizable id hid f ((hsame id hid).symm.trans hf)) hbind
  have houtline := keeps_sameOutline_finish last c last _ m' last.sameOutline_refl hfinish
  exact ⟨counts', named, ρ, hdefinitions,
    finalNames_of_bound hunique hdefinitions (hbound.sameOutline houtline)⟩

namespace twoBarriers

def procedure (name : String) (conv : CallConv) (callees : List FuncId) : Func where
  name := name
  params := []
  retTy := .void
  body := .ofList [(.entry,
    ⟨callees.map fun id => .call ⟨none, .void, .direct id, [], .c⟩, .ret none⟩)]
  conv := conv

def declared (name : String) : Func where
  name := name
  params := []
  retTy := .void
  conv := .spirFunc

/-- Two declarations are of one builtin, and the one whose name is normalized comes last. -/
def source : Module where
  funcs := .ofList [procedure "copy" .spirKernel [⟨2, 1⟩, ⟨3, 1⟩, ⟨4, 1⟩],
    procedure "twice" .spirFunc [⟨3, 1⟩],
    declared "_Z18__spir_ocl_barrierv", declared "_Z7barrierv"]

def prepared : Module := ((prepareStage {} .spir .none 10).apply source).2

def result : Module := ((run {} .none 10).apply source).2

def tally : PipelineCounts where
  preparation := some { hidden := 1 }
  kernels := 1
  renamedKernels := 1
  deviceFunctions := 1
  boundDeclarations := 1

end twoBarriers

open twoBarriers in
theorem twoBarriers_finalNames :
    prepared.symbols.Nodup ∧
      prepared.Normalizable (prepared.withRole .callingConvention .declaration) ∧
      result.symbols = ["xSYCL1311135945919181961", "sycl_func_0", "_Z7barrierv"] ∧
        ∃ counts' named ρ,
          (definitionsStage .none .callingConvention tally.preparation prepared).apply prepared =
            (.ok counts', named) ∧
          FinalNames .callingConvention prepared named ρ result := by
  have hprepare :
      (prepareStage {} .spir .none 10).apply source = (.ok tally.preparation, prepared) :=
    Prod.ext (by decide +kernel) rfl
  have hunique : prepared.symbols.Nodup := by decide +kernel
  have hnormalize : ∀ id ∈ prepared.withRole .callingConvention .declaration,
      ∀ f ∈ prepared.funcs.get? id, ∀ name ∈ (normalize f.name).toOption,
        normalize name = .ok name := by
    decide +kernel
  have hnormalizable : prepared.Normalizable (prepared.withRole .callingConvention .declaration) :=
    fun id hid f hf name hname => hnormalize id hid f hf name (by rw [hname]; rfl)
  have hrun : (run {} .none 10).apply source = (.ok tally, result) :=
    Prod.ext (by decide +kernel) rfl
  exact ⟨hunique, hnormalizable, by decide +kernel,
    finalNames_run (m := source) (c := {}) hprepare hunique hnormalizable hrun⟩

end Pipeline

end KernelIR
