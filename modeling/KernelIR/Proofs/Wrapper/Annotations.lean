import KernelIR.Proofs.Inline.Calls
import KernelIR.Proofs.Symbols
import KernelIR.Proofs.Wrapper.Unwrapped
import Mathlib

/-!
# Annotations travel up

A wrapper is done before it is inlined anywhere, so that it has collected all its annotations by
then.  A call of a wrapper stays in the caller until it is inlined, which hands the annotations
over.
-/

namespace KernelIR

/-- What a wrapper hands over under `key`, if it has it. -/
def IsAnnotationKey (key : String) : Prop := key.startsWith annotationStem = true ∧ key ≠ wrapperKey

namespace Func

theorem mem_annotations_iff {f : Func} {e : String × String} :
    e ∈ f.annotations ↔ f.attributes.get? e.1 = some e.2 ∧ IsAnnotationKey e.1 := by
  rw [annotations, List.mem_filter, Attributes.withStem, List.mem_filter, Attributes.get?,
    ← OrderedMap.mem_entries_iff, bne_iff_ne, and_assoc]
  rfl

theorem contains_annotate {f : Func} {annotations : List (String × String)} {key : String}
    (h : f.attributes.contains key = true) :
    (f.annotate annotations).attributes.contains key = true := by
  simp only [annotate]
  generalize f.attributes = a at h
  induction annotations generalizing a with
  | nil => exact h
  | cons e es ih => exact ih _ (a.contains_insert h)

theorem contains_annotate_of_mem {f : Func} {annotations : List (String × String)}
    {e : String × String} (h : e ∈ annotations) :
    (f.annotate annotations).attributes.contains e.1 = true := by
  obtain ⟨es, es', rfl⟩ := List.append_of_mem h
  have hsplit : f.annotate (es ++ e :: es') = ((f.annotate es).annotate [e]).annotate es' := by
    simp [annotate]
  rw [hsplit]
  exact contains_annotate (Attributes.contains_insert_self _ _ _)

/-- `g` is `f` with annotations that were added or written anew; all other attributes, the mark of
a wrapper among them, are the same. -/
structure Annotates (f g : Func) : Prop where
  flags : g.attributes.flags = f.attributes.flags
  keys : ∀ key, f.attributes.contains key = true → g.attributes.contains key = true
  others : ∀ key, ¬IsAnnotationKey key → g.attributes.get? key = f.attributes.get? key

variable {f g h : Func}

theorem annotates_of_eq (heq : g.attributes = f.attributes) : f.Annotates g := by
  constructor <;> simp [heq]

theorem Annotates.trans (h₁ : f.Annotates g) (h₂ : g.Annotates h) : f.Annotates h :=
  ⟨h₂.flags.trans h₁.flags, fun key hf => h₂.keys key (h₁.keys key hf),
    fun key hkey => (h₂.others key hkey).trans (h₁.others key hkey)⟩

theorem annotates_annotate (f wrapper : Func) : f.Annotates (f.annotate wrapper.annotations) where
  flags := by
    have h : ∀ (es : List (String × String)) (a : Attributes),
        (es.foldl (fun a e => a.insert e.1 e.2) a).flags = a.flags := fun es => by
      induction es with
      | nil => exact fun _ => rfl
      | cons e es ih => exact fun a => ih _
    exact h _ _
  keys _ h := contains_annotate h
  others key h := get?_annotate_of_ne fun e he => by
    rintro rfl
    exact h (mem_annotations_iff.1 he).2

theorem Annotates.isWrapper_eq (h : f.Annotates g) : g.isWrapper = f.isWrapper :=
  congrArg Option.isSome (h.others wrapperKey fun hkey => hkey.2 rfl)

end Func

namespace Module

variable {m m' m'' : Module} {a b : FuncId}

/-- The functions of `m'` are those of `m`, with annotations added to them. -/
def Annotates (m m' : Module) : Prop :=
  ∀ id, Option.Rel Func.Annotates (m.funcs.get? id) (m'.funcs.get? id)

theorem Annotates.refl (m : Module) : m.Annotates m :=
  fun _ => rel_self (fun _ => Func.annotates_of_eq rfl) _

theorem Annotates.trans (h₁ : m.Annotates m') (h₂ : m'.Annotates m'') : m.Annotates m'' :=
  fun id => rel_comp (h₁ id) (h₂ id) fun _ _ _ _ _ hr hr' => hr.trans hr'

theorem Annotates.exists_of_live (h : m.Annotates m') {f : Func} (hf : m.funcs.get? a = some f) :
    ∃ f', m'.funcs.get? a = some f' ∧ f.Annotates f' :=
  exists_of_rel (h a) hf

/-- `a` has all annotations of the wrapper `b`. -/
def HandedOver (m : Module) (b a : FuncId) : Prop :=
  ∃ g f, m.funcs.get? b = some g ∧ m.funcs.get? a = some f ∧
    ∀ key, IsAnnotationKey key → g.attributes.contains key = true → f.attributes.contains key = true

theorem HandedOver.annotates (h : m.HandedOver b a) (hm : m.Annotates m')
    (hb : m'.funcs.get? b = m.funcs.get? b) : m'.HandedOver b a := by
  obtain ⟨g, f, hg, hf, hkeys⟩ := h
  obtain ⟨f', hf', hff⟩ := hm.exists_of_live hf
  exact ⟨g, f', hb.trans hg, hf', fun key hkey hc => hff.keys key (hkeys key hkey hc)⟩

/-- Unwrapping a call adds the annotations of the wrapper to the caller. -/
theorem annotates_handOver_inlineAt {f g : Func} {pos : Position} {cont : Label}
    (hf : m.funcs.get? a = some f) (h : (m.handOver g a).inlineAt ⟨a, pos⟩ = .ok (cont, m')) :
    m.Annotates m' ∧ ∃ f', m'.funcs.get? a = some f' ∧
      ∀ key, IsAnnotationKey key → g.attributes.contains key = true →
        f'.attributes.contains key = true := by
  obtain ⟨call, target, callee, f', hcall, -, -, hs, hf', hother⟩ := handOver_inlineAt_eq_ok hf h
  obtain ⟨b, -, -, -, hbody, -⟩ := Inline.splice_eq_ok hs hcall
  have hattr : f'.attributes = (f.annotate g.annotations).attributes := by rw [hbody]
  refine ⟨rel_of_edit (fun _ => Func.annotates_of_eq rfl) hf hf' hother ?_, f', hf', ?_⟩
  · exact (Func.annotates_annotate f g).trans (Func.annotates_of_eq hattr)
  · intro key hkey hc
    obtain ⟨value, hvalue⟩ := Option.isSome_iff_exists.1 hc
    rw [hattr]
    exact Func.contains_annotate_of_mem (e := (key, value))
      (Func.mem_annotations_iff.2 ⟨hvalue, hkey⟩)

end Module

namespace WrapperWalk

variable {start m m' : Module} {w w' : WrapperWalk} {kernels : List FuncId}

theorem Moves.annotates (h : Moves w m w' m') : m.Annotates m' := by
  cases h with
  | unwrap hpath hf hnext hactive hdone hg hinline =>
      exact (Module.annotates_handOver_inlineAt hf hinline).1
  | _ => exact .refl m

/-- Each call of `start` is still there, unless its callee was done and handed its annotations
over. -/
def Collected (start : Module) (w : WrapperWalk) (m : Module) : Prop :=
  ∀ a b, start.Calls a b →
    m.Calls a b ∨ w.visited a = true ∧ b ∈ w.done ∧ m.HandedOver b a

theorem Collected.of_visited (h : Collected start w m)
    (hvisited : ∀ id, w.visited id = true → w'.visited id = true) (hdone : w.done ⊆ w'.done) :
    Collected start w' m :=
  fun a b hab => (h a b hab).imp_right fun ⟨ha, hb, hover⟩ => ⟨hvisited a ha, hdone hb, hover⟩

theorem Collected.unwrap {id wrapper : FuncId} {f g : Func} {pos : Position} {cont : Label}
    (h : Collected start w m) (hid : id ∉ w.done) (hvisited : w.visited id = true)
    (hf : m.funcs.get? id = some f)
    (hnext : w.nextStep? m f = some (.unwrap pos wrapper)) (hdone : wrapper ∈ w.done)
    (hg : m.funcs.get? wrapper = some g)
    (hinline : (m.handOver g id).inlineAt ⟨id, pos⟩ = .ok (cont, m')) :
    Collected start { w with inlined := w.inlined + 1 } m' := by
  obtain ⟨hm, f', hf', hkeys⟩ := Module.annotates_handOver_inlineAt hf hinline
  obtain ⟨call, target, callee, f'', hcall, hres, hcallee, hs, hf'', hother⟩ :=
    Module.handOver_inlineAt_eq_ok hf hinline
  obtain rfl : f' = f'' := Option.some.inj (hf'.symm.trans hf'')
  obtain ⟨call', -, hmem, hres', -, -⟩ := nextStep?_eq_unwrap hnext
  obtain rfl : call = call' := Except.ok.inj (hcall.symm.trans (Func.mem_calls_iff.1 hmem))
  have hlive : ∀ b, (m.funcs.get? b).isSome = true → (m'.funcs.get? b).isSome = true := by
    intro b hb
    obtain ⟨g, hg⟩ := Option.isSome_iff_exists.1 hb
    obtain ⟨g', hg', -⟩ := hm.exists_of_live hg
    rw [hg']
    rfl
  have hkept : ∀ b ∈ w.done, m'.funcs.get? b = m.funcs.get? b := fun b hb =>
    hother b fun he => hid (he ▸ hb)
  intro a b hab
  rcases h a b hab with ⟨fa, hfa, ⟨e, he, hres_e⟩, hb⟩ | ⟨ha, hb, hover⟩
  · by_cases ha : a = id
    · subst ha
      obtain rfl : f = fa := Option.some.inj (hf.symm.trans hfa)
      by_cases hbw : b = wrapper
      · subst hbw
        exact Or.inr ⟨hvisited, hdone, g, f', (hkept b hdone).trans hg, hf', hkeys⟩
      · have hne : call.callee.resolve? ≠ some b := by
          rw [hres']
          exact fun heq => hbw (Option.some.inj heq).symm
        obtain ⟨c, hc, hcb⟩ := Inline.exists_resolved_splice hs hcall
          (Func.hasCall_iff.2 ⟨e.1, he⟩) hres_e hne
        obtain ⟨pos', hpos'⟩ := Func.hasCall_iff.1 hc
        exact Or.inl ⟨f', hf', ⟨(pos', c), hpos', hcb⟩, hlive b hb⟩
    · exact Or.inl ⟨fa, (hother a ha).trans hfa, ⟨e, he, hres_e⟩, hlive b hb⟩
  · exact Or.inr ⟨ha, hb, hover.annotates hm (hkept b hb)⟩

theorem Collected.moves (h : Collected start w m) (hexp : Explored kernels start w m)
    (hmove : Moves w m w' m') : Collected start w' m' := by
  cases hmove with
  | skip hpath => exact h.of_visited (fun _ hv => hv) (List.Subset.refl _)
  | start hpath =>
      refine h.of_visited (fun id hv => ?_) (List.Subset.refl _)
      rw [visited_iff] at hv ⊢
      exact hv.imp_left fun hv => absurd hv (by simp [hpath])
  | leave hpath hf hnext =>
      refine h.of_visited (fun id hv => ?_) (List.subset_cons_self _ _)
      rw [visited_iff, hpath, List.mem_cons] at hv
      rw [visited_iff, List.mem_cons]
      tauto
  | descend hpath hf hnext | enter hpath hf hnext =>
      refine h.of_visited (fun id hv => ?_) (List.Subset.refl _)
      rw [visited_iff] at hv ⊢
      exact hv.imp_left (List.mem_cons_of_mem _)
  | @unwrap id _ _ _ _ _ _ _ hpath hf hnext hactive hdone hg hinline =>
      have htop : id ∈ w.path := hpath ▸ List.mem_cons_self
      have hnot : id ∉ w.done := fun hd => (List.nodup_append.1 hexp.nodup).2.2 id htop id hd rfl
      exact h.unwrap hnot (visited_iff.2 (Or.inl htop)) hf hnext hdone hg hinline

/-- What a kernel reaches, by calls that were there or that are there now, is done or has no
body. -/
theorem Collected.reaches (h : Collected start w m) (hexp : Explored kernels start w m)
    (hpath : w.path = []) {a b : FuncId} (ha : a ∈ w.done)
    (hab : Relation.ReflTransGen (fun a b => start.Calls a b ∨ m.Calls a b) a b) :
    b ∈ w.done ∨ ∃ f, m.funcs.get? b = some f ∧ f.isDeclaration = true := by
  have hvisited : ∀ id, w.visited id = true → id ∈ w.done := fun id hv => by
    simpa [visited_iff, hpath] using hv
  induction hab with
  | refl => exact Or.inl ha
  | @tail b c _ hcall ih =>
      have hstep : m.Calls b c ∨ b ∈ w.done ∧ c ∈ w.done := by
        rcases hcall with hcall | hcall
        · exact (h b c hcall).imp_right fun ⟨hb, hc, _⟩ => ⟨hvisited b hb, hc⟩
        · exact Or.inl hcall
      rcases hstep with hcall | ⟨-, hc⟩
      · rcases ih with hb | ⟨f, hf, hdecl⟩
        · exact hexp.reaches hpath hb (.single hcall)
        · exact absurd hcall (Module.not_calls_of_isDeclaration hf hdecl)
      · exact Or.inl hc

theorem Collected.handedOver (h : Collected start w m) (hexp : Explored kernels start w m)
    (hpath : w.path = []) {a b : FuncId} {g : Func}
    (ha : a ∈ w.done ∨ ∃ f, m.funcs.get? a = some f ∧ f.isDeclaration = true)
    (hab : start.Calls a b) (hg : m.funcs.get? b = some g) (hwrapper : g.isWrapper = true) :
    m.HandedOver b a := by
  rcases h a b hab with hcall | ⟨-, -, hover⟩
  · rcases ha with ha | ⟨f, hf, hdecl⟩
    · exact Bool.noConfusion (hwrapper.symm.trans (hexp.calls hpath ha hcall hg).1)
    · exact absurd hcall (Module.not_calls_of_isDeclaration hf hdecl)
  · exact hover

/-- A function that is a kernel at the end was one at the start, or was visited and changed. -/
theorem Explored.kernel_done {mode : KernelMode} {kernel : FuncId}
    (h : Explored (start.withRole mode .kernel) start w m) (hpath : w.path = [])
    (hpending : w.pending = [])
    (hkernel : kernel ∈ start.withRole mode .kernel ∨ kernel ∈ m.withRole mode .kernel) :
    kernel ∈ w.done := by
  have hvisited : ∀ id, w.visited id = true → id ∈ w.done := fun id hv => by
    simpa [visited_iff, hpath] using hv
  by_contra hnot
  have hv : w.visited kernel = false := Bool.eq_false_iff.2 fun hv => hnot (hvisited kernel hv)
  have hstart : kernel ∈ start.withRole mode .kernel := by
    rcases hkernel with hk | hk
    · exact hk
    · rw [Module.mem_withRole_iff, h.untouched kernel hv] at hk
      exact Module.mem_withRole_iff.2 hk
  rcases h.kernels_seen kernel hstart with hk | hk
  · simp [hpending] at hk
  · exact hnot (hvisited kernel hk)

end WrapperWalk

/-- Unwrapping adds annotations and takes no attribute away, and what a kernel reaches gets all
annotations that the wrappers it called have in the end. -/
theorem unwrapWrappers_annotations {mode : KernelMode} {steps n : Nat} {m m' : Module}
    (h : (unwrapWrappers mode steps).apply m = (.ok n, m')) :
    m.Annotates m' ∧
      ∀ kernel caller wrapper g,
        (kernel ∈ m.withRole mode .kernel ∨ kernel ∈ m'.withRole mode .kernel) →
        Relation.ReflTransGen (fun a b => m.Calls a b ∨ m'.Calls a b) kernel caller →
        m.Calls caller wrapper → m.funcs.get? wrapper = some g → g.isWrapper = true →
          m'.HandedOver wrapper caller := by
  rw [unwrapWrappers, ModuleM.apply_bind, ModuleM.apply_get] at h
  obtain ⟨w, ⟨hexp, hcol, hann⟩, hpath, hpending⟩ := WrapperWalk.run_eq_ok
    (P := fun w m₁ => WrapperWalk.Explored (m.withRole mode .kernel) m w m₁ ∧
      WrapperWalk.Collected m w m₁ ∧ m.Annotates m₁)
    (fun hP hmove => ⟨hP.1.moves hmove, hP.2.1.moves hP.1 hmove, hP.2.2.trans hmove.annotates⟩)
    ⟨.init _ m, fun _ _ hab => Or.inl hab, .refl m⟩ h
  refine ⟨hann, ?_⟩
  intro kernel caller wrapper g hkernel hreach hcall hg hwrapper
  obtain ⟨g', hg', hgg⟩ := hann.exists_of_live hg
  exact hcol.handedOver hexp hpath
    (hcol.reaches hexp hpath (hexp.kernel_done hpath hpending hkernel) hreach) hcall hg'
    (hgg.isWrapper_eq.trans hwrapper)

namespace nestedAnnotations

open nestedWrappers

def marked (key : String) : Attributes := { strings := .ofList [(key, ""), (wrapperKey, "")] }

/-- A kernel calls a wrapper that calls a wrapper. -/
def chain : Module where
  funcs := .ofList [link "kernel" 2 .spirKernel {}, link "outer" 3 .c (marked "fpga.outer"),
    link "inner" 4 .c (marked "fpga.inner"),
    { name := "external", params := [], retTy := .void }]

def unwrapped : Module := ((unwrapWrappers .callingConvention 20).apply chain).2

end nestedAnnotations

open nestedAnnotations in
theorem nestedAnnotations_handed_over :
    (unwrapWrappers .callingConvention 20).apply chain = (.ok 2, unwrapped) ∧
      (∃ f, unwrapped.funcs.get? ⟨2, 1⟩ = some f ∧ f.attributes.contains "fpga.inner" = true) ∧
        chain.Annotates unwrapped ∧ unwrapped.HandedOver ⟨2, 1⟩ ⟨1, 1⟩ := by
  have hok : (unwrapWrappers .callingConvention 20).apply chain = (.ok 2, unwrapped) :=
    Prod.ext (by cbv) rfl
  have hinner : ∃ f ∈ unwrapped.funcs.get? ⟨2, 1⟩,
      f.attributes.contains "fpga.inner" = true := by decide +kernel
  have hcall : chain.Calls ⟨1, 1⟩ ⟨2, 1⟩ := by decide +kernel
  obtain ⟨hann, hover⟩ := unwrapWrappers_annotations hok
  exact ⟨hok, hinner, hann, hover ⟨1, 1⟩ ⟨1, 1⟩ ⟨2, 1⟩ _ (Or.inl (by decide +kernel)) .refl hcall
    rfl (by decide +kernel)⟩

end KernelIR
