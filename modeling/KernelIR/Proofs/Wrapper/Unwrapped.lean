import KernelIR.Proofs.Wrapper.Walk
import Mathlib

/-!
# No wrapper call is left

A function that the walk is done with calls no wrapper, and what it calls has been visited.  Since
the walk edits the innermost function of its path only, this stays so until the end of the walk,
when all visited functions are done.
-/

namespace KernelIR

namespace Func

theorem get?_annotate_of_ne {f : Func} {annotations : List (String × String)} {key : String}
    (h : ∀ e ∈ annotations, e.1 ≠ key) :
    (f.annotate annotations).attributes.get? key = f.attributes.get? key := by
  simp only [annotate]
  generalize f.attributes = a
  induction annotations generalizing a with
  | nil => rfl
  | cons e es ih =>
      rw [List.foldl_cons, ih (fun e' he' => h e' (List.mem_cons_of_mem _ he'))]
      exact a.get?_insert_of_ne (h e List.mem_cons_self).symm _

theorem isWrapper_annotate (f g : Func) : (f.annotate g.annotations).isWrapper = f.isWrapper := by
  refine congrArg Option.isSome (get?_annotate_of_ne ?_)
  intro e he
  simpa [annotations] using (List.mem_filter.1 he).2

theorem calls_of_isDeclaration {f : Func} (h : f.isDeclaration = true) : f.calls = [] := by
  have hnil : f.body.entries = [] := by simpa [isDeclaration, OrderedMap.isEmpty] using h
  simp [calls, instrs, hnil]

end Func

namespace Module

/-- Unwrapping a call splices the wrapper into the annotated caller, and changes nothing else. -/
theorem handOver_inlineAt_eq_ok {m m' : Module} {id : FuncId} {pos : Position} {cont : Label}
    {f g : Func} (hf : m.funcs.get? id = some f)
    (h : (m.handOver g id).inlineAt ⟨id, pos⟩ = .ok (cont, m')) :
    ∃ call target callee f', f.callAt pos = .ok call ∧ call.callee.resolve? = some target ∧
      m.funcs.get? target = some callee ∧
      Inline.splice (f.annotate g.annotations) call callee pos = .ok (cont, f') ∧
      m'.funcs.get? id = some f' ∧ ∀ id', id' ≠ id → m'.funcs.get? id' = m.funcs.get? id' := by
  obtain ⟨caller, call, target, callee, f', hi, hs, rfl⟩ := inlineAt_eq_ok h
  have hcaller : f.annotate g.annotations = caller := by
    simpa [handOver, modifyFunc, hf] using hi.caller_live
  subst hcaller
  have hcallee : m.funcs.get? target = some callee := by
    have hlive := hi.callee_live
    rwa [handOver, modifyFunc, Arena.get?_modify_of_ne _ hi.not_recursive] at hlive
  refine ⟨call, target, callee, f', hi.call_at, hi.resolves, hcallee, hs, ?_, ?_⟩
  · simp [setFunc, handOver, modifyFunc, Arena.set, hf]
  · intro id' hne
    simp [setFunc, handOver, modifyFunc, Arena.get?_set_of_ne _ hne,
      Arena.get?_modify_of_ne _ hne]

/-- Unwrapping a call changes the caller only, and does not make it a wrapper. -/
theorem handOver_inlineAt {m m' : Module} {id : FuncId} {pos : Position} {cont : Label}
    {f g : Func} (hf : m.funcs.get? id = some f)
    (h : (m.handOver g id).inlineAt ⟨id, pos⟩ = .ok (cont, m')) :
    (∀ id', id' ≠ id → m'.funcs.get? id' = m.funcs.get? id') ∧
      ∃ f', m'.funcs.get? id = some f' ∧ f'.isWrapper = f.isWrapper := by
  obtain ⟨call, target, callee, f', hcall, -, -, hs, hf', hother⟩ := handOver_inlineAt_eq_ok hf h
  refine ⟨hother, f', hf', ?_⟩
  obtain ⟨b, -, -, -, hbody, -⟩ := Inline.splice_eq_ok hs hcall
  rw [hbody]
  exact Func.isWrapper_annotate f g

/-- `a` calls `b`, which is live. -/
def Calls (m : Module) (a b : FuncId) : Prop :=
  ∃ f, m.funcs.get? a = some f ∧ (∃ e ∈ f.calls, e.2.callee.resolve? = some b) ∧
    (m.funcs.get? b).isSome = true

instance (m : Module) (a b : FuncId) : Decidable (m.Calls a b) :=
  decidable_of_iff (∃ f ∈ m.funcs.get? a, (∃ e ∈ f.calls, e.2.callee.resolve? = some b) ∧
    (m.funcs.get? b).isSome = true) (by simp [Calls])

theorem Calls.congr {m m' : Module} {a b : FuncId} (h : m.Calls a b)
    (ha : m'.funcs.get? a = m.funcs.get? a)
    (hb : (m'.funcs.get? b).isSome = (m.funcs.get? b).isSome) : m'.Calls a b := by
  obtain ⟨f, hf, hcall, hlive⟩ := h
  exact ⟨f, ha.trans hf, hcall, hb.trans hlive⟩

theorem not_calls_of_isDeclaration {m : Module} {a b : FuncId} {f : Func}
    (hf : m.funcs.get? a = some f) (hdecl : f.isDeclaration = true) : ¬m.Calls a b := by
  rintro ⟨f', hf', ⟨e, he, -⟩, -⟩
  obtain rfl : f = f' := Option.some.inj (hf.symm.trans hf')
  rw [Func.calls_of_isDeclaration hdecl] at he
  exact nomatch he

theorem mem_withRole_iff {m : Module} {mode : KernelMode} {role : Role} {id : FuncId} :
    id ∈ m.withRole mode role ↔ ∃ f, m.funcs.get? id = some f ∧ f.role? mode = some role := by
  simp [withRole, Arena.mem_entries_iff]

end Module

namespace WrapperWalk

theorem Moves.isSome_get? {w w' : WrapperWalk} {m m' : Module} (h : Moves w m w' m')
    (id : FuncId) : (m'.funcs.get? id).isSome = (m.funcs.get? id).isSome := by
  cases h with
  | @unwrap top wrapper outer f g pos cont _ hpath hf hnext hactive hdone hg hinline =>
      obtain ⟨hother, f', hf', -⟩ := Module.handOver_inlineAt hf hinline
      by_cases hid : id = top
      · rw [hid, hf', hf]
        rfl
      · rw [hother id hid]
  | _ => rfl

theorem nextStep?_eq_none_mono {w w' : WrapperWalk} {m : Module} {f : Func}
    (hv : ∀ id, w.visited id = true → w'.visited id = true) (h : w.nextStep? m f = none) :
    w'.nextStep? m f = none := by
  rw [nextStep?_eq_none_iff] at h ⊢
  intro e he id g hid hg
  obtain ⟨hw, hd⟩ := h e he id g hid hg
  exact ⟨hw, hd.imp_right (hv id)⟩

theorem visited_iff {w : WrapperWalk} {id : FuncId} :
    w.visited id = true ↔ id ∈ w.path ∨ id ∈ w.done := by
  simp [visited]

/-- What holds at every point of a walk that started at `kernels` in `start`. -/
structure Explored (kernels : List FuncId) (start : Module) (w : WrapperWalk) (m : Module) :
    Prop where
  nodup : (w.path ++ w.done).Nodup
  kernels_seen : ∀ id ∈ kernels, id ∈ w.pending ∨ w.visited id = true
  untouched : ∀ id, w.visited id = false → m.funcs.get? id = start.funcs.get? id
  finished : ∀ id ∈ w.done, ∀ f, m.funcs.get? id = some f → w.nextStep? m f = none

theorem Explored.init (kernels : List FuncId) (m : Module) :
    Explored kernels m { pending := kernels } m where
  nodup := List.nodup_nil
  kernels_seen _ h := Or.inl h
  untouched _ _ := rfl
  finished _ h := nomatch h

/-- A function that is not visited yet goes on the path. -/
theorem Explored.push {kernels : List FuncId} {start m : Module} {w w' : WrapperWalk}
    {id : FuncId} (h : Explored kernels start w m) (hid : w.visited id = false)
    (hpath : w'.path = id :: w.path) (hdone : w'.done = w.done)
    (hpending : ∀ k ∈ w.pending, k ∈ w'.pending ∨ k = id) : Explored kernels start w' m := by
  have hmono : ∀ id', w.visited id' = true → w'.visited id' = true := by
    intro id' h'
    rw [visited_iff] at h' ⊢
    rw [hpath, hdone]
    exact h'.imp_left (List.mem_cons_of_mem _)
  have hnot : ¬(id ∈ w.path ∨ id ∈ w.done) := by
    intro h'
    rw [visited_iff.2 h'] at hid
    cases hid
  refine ⟨?_, ?_, ?_, ?_⟩
  · rw [hpath, hdone, List.cons_append, List.nodup_cons, List.mem_append]
    exact ⟨hnot, h.nodup⟩
  · intro k hk
    rcases h.kernels_seen k hk with hk | hk
    · rcases hpending k hk with hk | rfl
      · exact Or.inl hk
      · exact Or.inr (visited_iff.2 (Or.inl (hpath ▸ List.mem_cons_self)))
    · exact Or.inr (hmono k hk)
  · intro id' h'
    refine h.untouched id' (Bool.eq_false_iff.2 fun hv => ?_)
    rw [hmono id' hv] at h'
    cases h'
  · intro d hd f hf
    exact nextStep?_eq_none_mono hmono (h.finished d (hdone ▸ hd) f hf)

theorem Explored.moves {kernels : List FuncId} {start m m' : Module} {w w' : WrapperWalk}
    (h : Explored kernels start w m) (hmove : Moves w m w' m') :
    Explored kernels start w' m' := by
  cases hmove with
  | @skip kernel rest hpath hpending hvisited =>
      refine ⟨h.nodup, fun k hk => ?_, h.untouched, h.finished⟩
      rcases h.kernels_seen k hk with hk | hk
      · rw [hpending] at hk
        rcases List.mem_cons.1 hk with rfl | hk
        · exact Or.inr hvisited
        · exact Or.inl hk
      · exact Or.inr hk
  | @start kernel rest hpath hpending hvisited =>
      refine h.push hvisited (by rw [hpath]) rfl ?_
      intro k hk
      rw [hpending] at hk
      exact (List.mem_cons.1 hk).symm
  | @leave id outer f hpath hf hnext =>
      have hsame : ∀ id', w.visited id' = true ↔
          WrapperWalk.visited { w with path := outer, done := id :: w.done } id' = true := by
        intro id'
        simp only [visited_iff, hpath, List.mem_cons]
        tauto
      refine ⟨?_, ?_, ?_, ?_⟩
      · have hn := h.nodup
        rw [hpath] at hn
        have hperm : (outer ++ id :: w.done).Perm (id :: (outer ++ w.done)) := List.perm_middle
        exact hperm.nodup_iff.2 hn
      · intro k hk
        exact (h.kernels_seen k hk).imp_right (hsame k).1
      · intro id' h'
        refine h.untouched id' (Bool.eq_false_iff.2 fun hv => ?_)
        rw [(hsame id').1 hv] at h'
        cases h'
      · intro d hd g hg
        refine nextStep?_eq_none_mono (fun id' => (hsame id').1) ?_
        rcases List.mem_cons.1 hd with rfl | hd
        · obtain rfl : f = g := Option.some.inj (hf.symm.trans hg)
          exact hnext
        · exact h.finished d hd g hg
  | @descend id callee outer f hpath hf hnext =>
      exact h.push (nextStep?_eq_descend hnext).1 rfl rfl fun k hk => Or.inl hk
  | @enter id wrapper outer f pos hpath hf hnext hactive hdone =>
      refine h.push ?_ rfl rfl fun k hk => Or.inl hk
      simp [visited, hactive, hdone]
  | @unwrap id wrapper outer f g pos cont m' hpath hf hnext hactive hdone hg hinline =>
      obtain ⟨hother, f', hf', hw⟩ := Module.handOver_inlineAt hf hinline
      have htop : id ∈ w.path := hpath ▸ List.mem_cons_self
      have htop' : id ∉ w.done := fun hd =>
        (List.nodup_append.1 h.nodup).2.2 id htop id hd rfl
      refine ⟨h.nodup, h.kernels_seen, ?_, ?_⟩
      · intro id' h'
        have hne : id' ≠ id := by
          rintro rfl
          have hv : w.visited id' = true := visited_iff.2 (Or.inl htop)
          exact absurd (hv.symm.trans h') (by decide)
        rw [hother id' hne]
        exact h.untouched id' h'
      · intro d hd g' hg'
        have hne : d ≠ id := fun he => htop' (he ▸ hd)
        rw [hother d hne] at hg'
        have hold := nextStep?_eq_none_iff.1 (h.finished d hd g' hg')
        refine nextStep?_eq_none_iff.2 fun e he c gc hc hgc => ?_
        by_cases hcid : c = id
        · subst hcid
          obtain rfl : f' = gc := Option.some.inj (hf'.symm.trans hgc)
          exact ⟨hw.trans (hold e he c f hc hf).1, Or.inr (visited_iff.2 (Or.inl htop))⟩
        · rw [hother c hcid] at hgc
          exact hold e he c gc hc hgc

/-- A done function calls no wrapper, and what it calls is done or has no body. -/
theorem Explored.calls {kernels : List FuncId} {start m : Module} {w : WrapperWalk}
    (h : Explored kernels start w m) (hpath : w.path = []) {a b : FuncId} {g : Func}
    (ha : a ∈ w.done) (hab : m.Calls a b) (hg : m.funcs.get? b = some g) :
    g.isWrapper = false ∧ (g.isDeclaration = true ∨ b ∈ w.done) := by
  obtain ⟨f, hf, ⟨e, he, hres⟩, -⟩ := hab
  obtain ⟨hw, hd⟩ := nextStep?_eq_none_iff.1 (h.finished a ha f hf) e he b g hres hg
  exact ⟨hw, hd.imp_right fun hv => by simpa [visited_iff, hpath] using hv⟩

/-- A function without body makes no calls, so all that is reached is done or has no body. -/
theorem Explored.reaches {kernels : List FuncId} {start m : Module} {w : WrapperWalk}
    (h : Explored kernels start w m) (hpath : w.path = []) {a b : FuncId} (ha : a ∈ w.done)
    (hab : Relation.ReflTransGen m.Calls a b) :
    b ∈ w.done ∨ ∃ f, m.funcs.get? b = some f ∧ f.isDeclaration = true := by
  induction hab with
  | refl => exact Or.inl ha
  | tail _ hcall ih =>
      rcases ih with hd | ⟨f, hf, hdecl⟩
      · obtain ⟨_, _, _, hlive⟩ := id hcall
        obtain ⟨g, hg⟩ := Option.isSome_iff_exists.1 hlive
        rcases (h.calls hpath hd hcall hg).2 with hdecl | hd'
        · exact Or.inr ⟨g, hg, hdecl⟩
        · exact Or.inl hd'
      · exact absurd hcall (Module.not_calls_of_isDeclaration hf hdecl)

end WrapperWalk

/-- Once the wrappers are unwrapped, no function that a kernel reaches calls a wrapper. -/
theorem unwrapWrappers_reaches_no_wrapper_call {mode : KernelMode} {steps n : Nat}
    {m m' : Module} (h : (unwrapWrappers mode steps).apply m = (.ok n, m'))
    {kernel caller callee : FuncId}
    (hkernel : kernel ∈ m.withRole mode .kernel ∨ kernel ∈ m'.withRole mode .kernel)
    (hreach : Relation.ReflTransGen m'.Calls kernel caller) (hcall : m'.Calls caller callee)
    {g : Func} (hg : m'.funcs.get? callee = some g) : g.isWrapper = false := by
  rw [unwrapWrappers, ModuleM.apply_bind, ModuleM.apply_get] at h
  obtain ⟨w, hw, hpath, hpending⟩ := WrapperWalk.run_eq_ok
    (P := WrapperWalk.Explored (m.withRole mode .kernel) m) (fun hP => hP.moves) (.init _ m) h
  have hseen : ∀ id ∈ m.withRole mode .kernel, id ∈ w.done := by
    intro id hid
    simpa [hpending, hpath, WrapperWalk.visited] using hw.kernels_seen id hid
  have hdone : kernel ∈ w.done := by
    rcases hkernel with hk | hk
    · exact hseen kernel hk
    · by_contra hnot
      have hv : w.visited kernel = false := by simp [WrapperWalk.visited, hpath, hnot]
      obtain ⟨f, hf, hrole⟩ := Module.mem_withRole_iff.1 hk
      rw [hw.untouched kernel hv] at hf
      exact hnot (hseen kernel (Module.mem_withRole_iff.2 ⟨f, hf, hrole⟩))
  rcases hw.reaches hpath hdone hreach with hc | ⟨f, hf, hdecl⟩
  · exact (hw.calls hpath hc hcall hg).1
  · exact absurd hcall (Module.not_calls_of_isDeclaration hf hdecl)

namespace nestedWrappers

/-- A function without parameters that makes one call. -/
def link (name : String) (callee : Nat) (conv : CallConv) (attributes : Attributes) : Func where
  name := name
  params := []
  retTy := .void
  body := .ofList [(.entry, ⟨[.call ⟨none, .void, .direct ⟨callee, 1⟩, [], .c⟩], .ret none⟩)]
  conv := conv
  attributes := attributes

def wrapper : Attributes := { strings := .ofList [(wrapperKey, "")] }

/-- A kernel calls a wrapper that calls a wrapper that calls `leaf`, which calls `external`. -/
def chain : Module where
  funcs := .ofList [link "kernel" 2 .spirKernel {}, link "outer" 3 .c wrapper,
    link "inner" 4 .c wrapper, link "leaf" 5 .c {},
    { name := "external", params := [], retTy := .void }]

def unwrapped : Module := ((unwrapWrappers .callingConvention 20).apply chain).2

end nestedWrappers

open nestedWrappers in
theorem nestedWrappers_reaches_no_wrapper_call :
    (unwrapWrappers .callingConvention 20).apply chain = (.ok 2, unwrapped) ∧
      unwrapped.Calls ⟨1, 1⟩ ⟨4, 1⟩ ∧ unwrapped.Calls ⟨4, 1⟩ ⟨5, 1⟩ ∧
        ∀ g, unwrapped.funcs.get? ⟨5, 1⟩ = some g → g.isWrapper = false := by
  have hok : (unwrapWrappers .callingConvention 20).apply chain = (.ok 2, unwrapped) :=
    Prod.ext (by cbv) rfl
  have hkernel : ⟨1, 1⟩ ∈ chain.withRole .callingConvention .kernel := by decide +kernel
  have hleaf : unwrapped.Calls ⟨1, 1⟩ ⟨4, 1⟩ := by decide +kernel
  have hext : unwrapped.Calls ⟨4, 1⟩ ⟨5, 1⟩ := by decide +kernel
  exact ⟨hok, hleaf, hext, fun g hg => unwrapWrappers_reaches_no_wrapper_call hok (Or.inl hkernel)
    (.single hleaf) hext hg⟩

end KernelIR
