import KernelIR.Proofs.Digits
import KernelIR.Proofs.Naming.Pipeline
import KernelIR.Proofs.Naming.Rerun
import Mathlib

/-!
# The lengths of kernel names

A 64-bit hash has at most 20 digits, so that a name made from one always fits.  The length is
checked only when a name is made: a name that looks like a hash already is kept at any length.
-/

namespace KernelIR

namespace KernelName

variable {name : String}

theorem checkLength_eq_ok_iff :
    checkLength name = .ok () ↔ name.utf8ByteSize + suffixRoom ≤ lengthLimit := by
  rw [checkLength]
  split_ifs with hfits
  · exact iff_of_true rfl hfits
  · exact iff_of_false nofun hfits

theorem checkLength_stem_append {digits : List Char} (h : ∀ c ∈ digits, c.isDigit = true) :
    checkLength (stem ++ String.ofList digits) = .ok () ↔ digits.length ≤ 57 := by
  have hstem : stem.utf8ByteSize = 5 := by decide
  rw [checkLength_eq_ok_iff, String.utf8ByteSize_append, String.utf8ByteSize_ofList,
    utf8Len_of_isDigit h, hstem, suffixRoom, lengthLimit]
  omega

theorem checkLength_synthesize (name : String) : checkLength (synthesize name) = .ok () := by
  rw [synthesize, Nat.toString_eq_ofList_toDigits, checkLength_stem_append (isDigit_toDigits _)]
  have hhash : (uuid name).hash.toNat < 10 ^ 20 :=
    (UInt64.toNat_lt _).trans (by decide)
  have hlength := (Nat.length_toDigits_le_iff (by decide) (by decide)).2 hhash
  omega

end KernelName

namespace Pipeline

open ModuleM

variable {c : Config} {d : Demangler} {steps : Nat} {m pre m' : Module} {counts : PipelineCounts}
  {preparation : Option PreparationCounts} {id : FuncId}

/-- The name of a kernel after a run, whatever is done to conventions in the end. -/
theorem kernelName_run
    (hprepare : (prepareStage c (c.flowFor m) d steps).apply m = (.ok preparation, pre))
    (hkernel : id ∈ pre.withRole (c.flowFor m).kernelMode .kernel)
    (hrun : (run c d steps).apply m = (.ok counts, m')) :
    ∃ f g, pre.funcs.get? id = some f ∧ m'.funcs.get? id = some g ∧
      g.name =
        if KernelName.isSynthesized f.name then f.name else KernelName.synthesize f.name := by
  obtain ⟨_, named, _, last, hdefinitions, hbind, hfinish⟩ := run_eq_ok_of_prepare hprepare hrun
  have hother : ∀ role, role ≠ .kernel → id ∉ pre.withRole (c.flowFor m).kernelMode role :=
    fun _ hne => Module.not_mem_withRole hkernel hne.symm
  obtain ⟨-, hkernels, -⟩ := definitionsStage_eq_ok hdefinitions
  obtain ⟨f, g, hf, hg, hnamed⟩ := hkernels id hkernel
  have hname : g.name =
      if KernelName.isSynthesized f.name then f.name else KernelName.synthesize f.name := by
    split_ifs with hhash
    · -- That a hash is not hashed again has to be followed through the stage.
      have hkept : named.Tracked pre.triple id (some f) (· = f.name) := by
        refine tracked_definitionsStage d _ _ pre (fun _ name hname => Or.inl ?_)
          (fun hid => absurd hid (hother .deviceFunction (by decide))) pre _ named
          (Module.tracked_self hf rfl) hdefinitions
        rw [hname, hhash]
      exact hkept.names_of_isSome rfl hg
    · exact hnamed.resolve_right fun h => hhash (KernelName.isSynthesized_iff.2 h.1)
  have hlast : last.Tracked named.triple id (some g) (· = g.name) :=
    tracked_bindDeclarations _ (fun hid => absurd hid (hother .declaration (by decide))) named _
      last (Module.tracked_self hg rfl) hbind
  obtain ⟨g₁, hg₁, -, hname₁⟩ := hlast.func g rfl
  have houtline := keeps_sameOutline_finish last c last _ m' last.sameOutline_refl hfinish
  obtain ⟨g₂, hg₂, hname₂, -⟩ := houtline.get?_eq_some hg₁
  exact ⟨f, g₂, hf, hg₂, by rw [hname₂, hname₁, hname]⟩

/-- Every kernel is called by a hash after a run.  The name fits the backend, unless it came into
the run as a hash that is too long. -/
theorem kernelName_fits_iff
    (hprepare : (prepareStage c (c.flowFor m) d steps).apply m = (.ok preparation, pre))
    (hkernel : id ∈ pre.withRole (c.flowFor m).kernelMode .kernel)
    (hrun : (run c d steps).apply m = (.ok counts, m')) :
    ∃ f g, pre.funcs.get? id = some f ∧ m'.funcs.get? id = some g ∧
      KernelName.IsHash g.name ∧
      (KernelName.checkLength g.name = .ok () ↔
        (KernelName.IsHash f.name → KernelName.checkLength f.name = .ok ())) := by
  obtain ⟨f, g, hf, hg, hname⟩ := kernelName_run hprepare hkernel hrun
  refine ⟨f, g, hf, hg, ?_⟩
  by_cases hhash : KernelName.IsHash f.name
  · rw [if_pos (KernelName.isSynthesized_iff.2 hhash)] at hname
    rw [hname]
    exact ⟨hhash, fun hfits _ => hfits, fun h => h hhash⟩
  · rw [if_neg fun h => hhash (KernelName.isSynthesized_iff.1 h)] at hname
    rw [hname]
    exact ⟨KernelName.isHash_synthesize f.name,
      iff_of_true (KernelName.checkLength_synthesize f.name) fun h => absurd h hhash⟩

end Pipeline

/-- No name is ever found too long: the only ones above the limit are hashes from before the run,
which are not checked. -/
theorem Module.setKernelName_ne_kernelNameTooLong (m : Module) (id : FuncId) (name : String)
    (length limit : Nat) :
    m.setKernelName id ≠ .error (.kernelNameTooLong name length limit) := by
  intro h
  rw [setKernelName] at h
  split at h
  · cases h
  · split at h
    · cases h
    · simp only [KernelName.checkLength_synthesize] at h
      split at h <;> cases h

namespace Pipeline

namespace hashNamed

/-- A kernel that is called by a hash of that many digits. -/
def source (digits : Nat) : Module where
  funcs := .ofList [{
    name := KernelName.stem ++ String.ofList (List.replicate digits '1')
    params := []
    retTy := .void
    body := .ofList [(.entry, ⟨[], .ret none⟩)]
    conv := .spirKernel }]

def kernel : FuncId := ⟨1, 1⟩

def prepared (c : Config) (digits : Nat) : Module :=
  ((prepareStage c .spir .none 10).apply (source digits)).2

def result (c : Config) (digits : Nat) : Module := ((run c .none 10).apply (source digits)).2

end hashNamed

open hashNamed in
theorem hashNamed_fits :
    ∃ f g, (prepared {} 57).funcs.get? kernel = some f ∧ (result {} 57).funcs.get? kernel = some g ∧
      KernelName.IsHash g.name ∧
      (KernelName.checkLength g.name = .ok () ↔
        (KernelName.IsHash f.name → KernelName.checkLength f.name = .ok ())) := by
  have hprepared : ((prepareStage {} .spir .none 10).apply (source 57)).1.isOk = true := by
    decide +kernel
  have hresult : ((run {} .none 10).apply (source 57)).1.isOk = true := by decide +kernel
  obtain ⟨preparation, hprepare⟩ := exists_ok_of_isOk hprepared
  obtain ⟨counts, hrun⟩ := exists_ok_of_isOk hresult
  have hkernel : kernel ∈ (prepared {} 57).withRole .callingConvention .kernel := by
    decide +kernel
  exact kernelName_fits_iff (m := source 57) hprepare hkernel hrun

open hashNamed in
/-- One digit more is one too many. -/
theorem hashNamed_too_long :
    ∃ c : Config,
      (∃ preparation, (prepareStage c (c.flowFor (source 58)) .none 10).apply (source 58) =
        (.ok preparation, prepared c 58)) ∧
      kernel ∈ (prepared c 58).withRole (c.flowFor (source 58)).kernelMode .kernel ∧
      (∃ counts, (run c .none 10).apply (source 58) = (.ok counts, result c 58)) ∧
      ((result c 58).funcs.get? kernel).map (fun g => (KernelName.checkLength g.name).isOk) =
        some false := by
  refine ⟨{ runPreparation := false }, exists_ok_of_isOk ?_, ?_, exists_ok_of_isOk ?_, ?_⟩
  all_goals decide +kernel

end Pipeline

end KernelIR
