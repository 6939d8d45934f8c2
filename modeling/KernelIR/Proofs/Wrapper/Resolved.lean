import KernelIR.Proofs.Wrapper.Nesting
import Mathlib

/-!
# Wrappers that call functions by name

Calls in a wrapper that name their function stay as they are when the wrapper is inlined.  It is
finished then, so that its calls name no wrapper, and nothing that is pasted is inlined again.  The
bound on the depth that decides whether unwrapping comes to an end is zero here.
-/

namespace KernelIR

/-- The calls of `g` name functions. -/
def Func.Resolved (g : Func) : Prop := ∀ c, g.HasCall c → ∃ id, c.callee.resolve? = some id

theorem Inline.resolved_splice {caller callee f : Func} {call : Call} {pos : Position}
    {cont : Label} (hs : splice caller call callee pos = .ok (cont, f))
    (hcall : caller.callAt pos = .ok call) (hcaller : caller.Resolved)
    (hcallee : callee.Resolved) : f.Resolved := by
  intro c hc
  obtain ⟨i, hi, ⟨c₀, hc₀, rfl⟩ | ⟨c₀, hc₀, rfl⟩⟩ := hasCall_splice hs hcall hc
  · obtain ⟨id, hid⟩ := hcaller c₀ hc₀
    exact ⟨id, resolve?_of_mapOperands hi hid⟩
  · obtain ⟨id, hid⟩ := hcallee c₀ hc₀
    exact ⟨id, resolve?_of_copy hi hid⟩

/-- What stands under `id`, if anything, is no wrapper. -/
def Module.IsPlain (m : Module) (id : FuncId) : Prop :=
  ∀ g, m.funcs.get? id = some g → g.isWrapper = false

namespace WrapperWalk

variable {kernels : List FuncId} {start m m' : Module} {w w' : WrapperWalk} {d : Depths}

/-- Wrappers name what they call, and what was pasted names no wrapper. -/
structure Settled (m : Module) (d : Depths) : Prop where
  wrappers : ∀ id g, m.funcs.get? id = some g → g.isWrapper = true → g.Resolved
  pasted : ∀ id f, m.funcs.get? id = some f → ∀ e ∈ f.body.entries, 0 < d id e.1 →
    ∀ c, .call c ∈ e.2.instrs → ∃ id', c.callee.resolve? = some id' ∧ m.IsPlain id'

/-- Inlining makes no function a wrapper, and makes none cease to be one. -/
theorem exists_isWrapper_eq {id : FuncId} {f g : Func} {pos : Position} {cont : Label}
    (hf : m.funcs.get? id = some f)
    (hinline : (m.handOver g id).inlineAt ⟨id, pos⟩ = .ok (cont, m')) {id' : FuncId} {g' : Func}
    (hg' : m'.funcs.get? id' = some g') :
    ∃ g₀, m.funcs.get? id' = some g₀ ∧ g'.isWrapper = g₀.isWrapper := by
  obtain ⟨hother, f', hf', hw⟩ := Module.handOver_inlineAt hf hinline
  by_cases hid : id' = id
  · subst hid
    obtain rfl : f' = g' := Option.some.inj (hf'.symm.trans hg')
    exact ⟨f, hf, hw⟩
  · exact ⟨g', (hother id' hid).symm.trans hg', rfl⟩

theorem isPlain_inlineAt {id : FuncId} {f g : Func} {pos : Position} {cont : Label}
    (hf : m.funcs.get? id = some f)
    (hinline : (m.handOver g id).inlineAt ⟨id, pos⟩ = .ok (cont, m')) {id' : FuncId}
    (h : m.IsPlain id') : m'.IsPlain id' := by
  intro g' hg'
  obtain ⟨g₀, hg₀, heq⟩ := exists_isWrapper_eq hf hinline hg'
  exact heq.trans (h g₀ hg₀)

theorem isPlain_of_finished {id : FuncId} {g : Func} {c : Call} (hg : w.nextStep? m g = none)
    (hc : g.HasCall c) (hid : c.callee.resolve? = some id) : m.IsPlain id := by
  intro g' hg'
  obtain ⟨pos, hpos⟩ := Func.hasCall_iff.1 hc
  exact (nextStep?_eq_none_iff.1 hg (pos, c) hpos id g' hid hg').1

/-- A finished wrapper that names what it calls is pasted. -/
theorem Settled.unwrap {id wrapper : FuncId} {f g : Func} {pos : Position} {cont : Label}
    (h : Settled m d) (hexp : Explored kernels start w m) (hf : m.funcs.get? id = some f)
    (hnext : w.nextStep? m f = some (.unwrap pos wrapper)) (hdone : wrapper ∈ w.done)
    (hinline : (m.handOver g id).inlineAt ⟨id, pos⟩ = .ok (cont, m')) :
    Settled m' (d.paste f ⟨id, pos⟩) := by
  obtain ⟨call, target, callee, f', hcall, hres, hcallee, hs, hf', hother⟩ :=
    Module.handOver_inlineAt_eq_ok hf hinline
  obtain ⟨call', g', hmem, hres', hg', hw⟩ := nextStep?_eq_unwrap hnext
  obtain rfl : call = call' := Except.ok.inj (hcall.symm.trans (Func.mem_calls_iff.1 hmem))
  obtain rfl : target = wrapper := Option.some.inj (hres.symm.trans hres')
  obtain rfl : callee = g' := Option.some.inj (hcallee.symm.trans hg')
  have hnamed : callee.Resolved := h.wrappers target callee hcallee hw
  have hfinished := hexp.finished target hdone callee hcallee
  constructor
  · intro id' g' hg' hw'
    obtain ⟨g₀, hg₀, heq⟩ := exists_isWrapper_eq hf hinline hg'
    by_cases hid : id' = id
    · subst hid
      obtain rfl : f = g₀ := Option.some.inj (hf.symm.trans hg₀)
      obtain rfl : f' = g' := Option.some.inj (hf'.symm.trans hg')
      exact Inline.resolved_splice hs hcall (h.wrappers id' f hf (heq.symm.trans hw')) hnamed
    · exact h.wrappers id' g' ((hother id' hid).symm.trans hg') hw'
  · intro id' f₁ hf₁ e he hpos c hc
    by_cases hid : id' = id
    · subst hid
      obtain rfl : f' = f₁ := Option.some.inj (hf'.symm.trans hf₁)
      obtain ⟨i, hi, ⟨e₀, he₀, c₀, hc₀, rfl, hlabel⟩ | ⟨c₀, hc₀, rfl, -⟩⟩ :=
        Inline.call_mem_splice hs hcall he hc
      · rw [d.paste_of_mem (f := f) ⟨id', pos⟩ he₀ hlabel] at hpos
        obtain ⟨id'', hid'', hplain⟩ := h.pasted id' f hf e₀ he₀ hpos c₀ hc₀
        exact ⟨id'', Inline.resolve?_of_mapOperands hi hid'', isPlain_inlineAt hf hinline hplain⟩
      · obtain ⟨id'', hid''⟩ := hnamed c₀ hc₀
        exact ⟨id'', Inline.resolve?_of_copy hi hid'',
          isPlain_inlineAt hf hinline (isPlain_of_finished hfinished hc₀ hid'')⟩
    · rw [d.paste_of_ne f ⟨id, pos⟩ hid] at hpos
      obtain ⟨id'', hid'', hplain⟩ :=
        h.pasted id' f₁ ((hother id' hid).symm.trans hf₁) e he hpos c hc
      exact ⟨id'', hid'', isPlain_inlineAt hf hinline hplain⟩

theorem nextDepths_eq_self (h : w.unwrapSite? m = none) : w.nextDepths m d = d := by
  rw [nextDepths, h]

theorem unwrapSite?_of_path_nil (h : w.path = []) : w.unwrapSite? m = none := by
  rw [unwrapSite?, h]
  rfl

theorem Settled.moves (h : Settled m d) (hexp : Explored kernels start w m)
    (hmove : Moves w m w' m') : Settled m' (w.nextDepths m d) := by
  cases hmove with
  | skip hpath | start hpath =>
      rw [nextDepths_eq_self (unwrapSite?_of_path_nil hpath)]
      exact h
  | leave hpath hf hnext | descend hpath hf hnext =>
      rw [nextDepths_eq_self (by rw [unwrapSite?_of_path hpath hf, hnext])]
      exact h
  | enter hpath hf hnext hactive hdone =>
      rw [nextDepths_eq_self (by rw [unwrapSite?_of_path hpath hf, hnext]; simp [hdone])]
      exact h
  | unwrap hpath hf hnext hactive hdone hg hinline =>
      rw [nextDepths, unwrapSite?_unwrap hpath hf hnext hactive hdone]
      exact h.unwrap hexp hf hnext hdone hinline

theorem Walks.settled (h : Walks kernels start w m d)
    (hstart : ∀ id g, start.funcs.get? id = some g → g.isWrapper = true → g.Resolved) :
    Settled m d := by
  induction h with
  | init =>
      refine ⟨hstart, ?_⟩
      intro id f _ e _ hpos
      exact absurd hpos (Nat.lt_irrefl 0)
  | move hwalk hmove ih => exact ih.moves hwalk.explored hmove

theorem unwrapSite?_eq_some {f : Func} {site : CallSite} (h : w.unwrapSite? m = some (f, site)) :
    m.funcs.get? site.caller = some f ∧
      ∃ wrapper, w.nextStep? m f = some (.unwrap site.pos wrapper) := by
  obtain ⟨id, -, h⟩ := Option.bind_eq_some_iff.1 h
  obtain ⟨f', hf', h⟩ := Option.bind_eq_some_iff.1 h
  split at h
  · next pos wrapper hnext =>
      split_ifs at h
      cases h
      exact ⟨hf', wrapper, hnext⟩
  · cases h

/-- Only calls that the function had before the walk are inlined into it. -/
theorem nestsWithin_zero
    (hstart : ∀ id g, start.funcs.get? id = some g → g.isWrapper = true → g.Resolved) :
    NestsWithin kernels start 0 := by
  intro w m d h f site hsite
  obtain ⟨hf, wrapper, hnext⟩ := unwrapSite?_eq_some hsite
  obtain ⟨call, g, hmem, hres, hg, hw⟩ := nextStep?_eq_unwrap hnext
  obtain ⟨b, hb, hcall⟩ := Func.callAt_eq_ok_iff.1 (Func.mem_calls_iff.1 hmem)
  refine Nat.le_of_not_lt ?_
  intro hpos
  obtain ⟨id, hid, hplain⟩ := (h.settled hstart).pasted site.caller f hf (site.pos.label, b)
    (OrderedMap.mem_entries_iff.2 hb) hpos call (List.mem_of_getElem? hcall)
  obtain rfl : wrapper = id := Option.some.inj (hres.symm.trans hid)
  exact Bool.noConfusion (hw.symm.trans (hplain g hg))

end WrapperWalk

/-- Unwrapping comes to an end if no wrapper calls through a register or a parameter. -/
theorem unwrapWrappers_ends_of_resolved (mode : KernelMode) (m : Module)
    (hm : ∀ id g, m.funcs.get? id = some g → g.isWrapper = true → g.Resolved) :
    ∃ steps, ((unwrapWrappers mode steps).apply m).1 ≠ .error .outOfSteps :=
  unwrapWrappers_ends_of_nestsWithin (WrapperWalk.nestsWithin_zero hm)

end KernelIR
