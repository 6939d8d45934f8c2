import KernelIR.Proofs.Inline.Splice
import KernelIR.Wrapper
import Mathlib

/-!
# The steps of the wrapper walk

`Moves` lists what a step of the walk does when it neither fails nor ends the walk.  All that is
proved of the walk is proved from these six cases.
-/

namespace KernelIR

/-- `m` with the annotations of `wrapper` handed over to `id`. -/
def Module.handOver (m : Module) (wrapper : Func) (id : FuncId) : Module :=
  m.modifyFunc id fun f => f.annotate wrapper.annotations

namespace WrapperWalk

/-- What the walk looks for in one call. -/
def callStep? (w : WrapperWalk) (m : Module) (e : Position × Call) : Option WrapperStep :=
  e.2.callee.resolve?.bind fun id =>
    (m.funcs.get? id).bind fun callee =>
      if callee.isWrapper then some (.unwrap e.1 id)
      else if !callee.isDeclaration && !w.visited id then some (.descend id)
      else none

theorem nextStep?_eq (w : WrapperWalk) (m : Module) (f : Func) :
    w.nextStep? m f = f.calls.findSome? (w.callStep? m) := rfl

/-- The walk is done with a function that calls no wrapper and nothing that is left to visit. -/
theorem nextStep?_eq_none_iff {w : WrapperWalk} {m : Module} {f : Func} :
    w.nextStep? m f = none ↔ ∀ e ∈ f.calls, ∀ id g, e.2.callee.resolve? = some id →
      m.funcs.get? id = some g →
        g.isWrapper = false ∧ (g.isDeclaration = true ∨ w.visited id = true) := by
  rw [nextStep?_eq, List.findSome?_eq_none_iff]
  refine forall₂_congr ?_
  intro e _
  rw [callStep?]
  constructor
  · intro h id g hid hg
    rw [hid, Option.bind_some, hg, Option.bind_some] at h
    split_ifs at h with hw hd
    refine ⟨by simpa using hw, ?_⟩
    by_cases hg' : g.isDeclaration = true
    · exact Or.inl hg'
    · exact Or.inr (by simpa [hg'] using hd)
  · intro h
    cases hid : e.2.callee.resolve? with
    | none => rfl
    | some id =>
        cases hg : m.funcs.get? id with
        | none => simp [hg]
        | some g =>
            obtain ⟨hw, hd⟩ := h id g hid hg
            rcases hd with hd | hd <;> simp [hg, hw, hd]

theorem nextStep?_eq_unwrap {w : WrapperWalk} {m : Module} {f : Func} {pos : Position}
    {wrapper : FuncId} (h : w.nextStep? m f = some (.unwrap pos wrapper)) :
    ∃ call g, (pos, call) ∈ f.calls ∧ call.callee.resolve? = some wrapper ∧
      m.funcs.get? wrapper = some g ∧ g.isWrapper = true := by
  rw [nextStep?_eq] at h
  obtain ⟨e, he, hstep⟩ := List.exists_of_findSome?_eq_some h
  obtain ⟨id, hid, hstep⟩ := Option.bind_eq_some_iff.1 hstep
  obtain ⟨g, hg, hstep⟩ := Option.bind_eq_some_iff.1 hstep
  split_ifs at hstep with hw hd
  · cases hstep
    exact ⟨e.2, g, he, hid, hg, hw⟩
  · cases hstep

theorem nextStep?_eq_descend {w : WrapperWalk} {m : Module} {f : Func} {callee : FuncId}
    (h : w.nextStep? m f = some (.descend callee)) :
    w.visited callee = false ∧ ∃ call g, call ∈ f.calls ∧ call.2.callee.resolve? = some callee ∧
      m.funcs.get? callee = some g ∧ g.isWrapper = false := by
  rw [nextStep?_eq] at h
  obtain ⟨e, he, hstep⟩ := List.exists_of_findSome?_eq_some h
  obtain ⟨id, hid, hstep⟩ := Option.bind_eq_some_iff.1 hstep
  obtain ⟨g, hg, hstep⟩ := Option.bind_eq_some_iff.1 hstep
  split_ifs at hstep with hw hd
  · cases hstep
  · cases hstep
    exact ⟨by simpa using (Bool.and_eq_true_iff.1 hd).2, e, g, he, hid, hg, by simpa using hw⟩

inductive Moves (w : WrapperWalk) (m : Module) : WrapperWalk → Module → Prop
  | skip {kernel : FuncId} {rest : List FuncId} (hpath : w.path = [])
      (hpending : w.pending = kernel :: rest) (hvisited : w.visited kernel = true) :
      Moves w m { w with pending := rest } m
  | start {kernel : FuncId} {rest : List FuncId} (hpath : w.path = [])
      (hpending : w.pending = kernel :: rest) (hvisited : w.visited kernel = false) :
      Moves w m { w with pending := rest, path := [kernel] } m
  | leave {id : FuncId} {outer : List FuncId} {f : Func} (hpath : w.path = id :: outer)
      (hf : m.funcs.get? id = some f) (hnext : w.nextStep? m f = none) :
      Moves w m { w with path := outer, done := id :: w.done } m
  | descend {id callee : FuncId} {outer : List FuncId} {f : Func} (hpath : w.path = id :: outer)
      (hf : m.funcs.get? id = some f) (hnext : w.nextStep? m f = some (.descend callee)) :
      Moves w m { w with path := callee :: w.path } m
  | enter {id wrapper : FuncId} {outer : List FuncId} {f : Func} {pos : Position}
      (hpath : w.path = id :: outer) (hf : m.funcs.get? id = some f)
      (hnext : w.nextStep? m f = some (.unwrap pos wrapper)) (hactive : wrapper ∉ w.path)
      (hdone : wrapper ∉ w.done) :
      Moves w m { w with path := wrapper :: w.path } m
  | unwrap {id wrapper : FuncId} {outer : List FuncId} {f g : Func} {pos : Position}
      {cont : Label} {m' : Module} (hpath : w.path = id :: outer)
      (hf : m.funcs.get? id = some f) (hnext : w.nextStep? m f = some (.unwrap pos wrapper))
      (hactive : wrapper ∉ w.path) (hdone : wrapper ∈ w.done)
      (hg : m.funcs.get? wrapper = some g)
      (hinline : (m.handOver g id).inlineAt ⟨id, pos⟩ = .ok (cont, m')) :
      Moves w m { w with inlined := w.inlined + 1 } m'

theorem unwrapCall_apply {m : Module} {site : CallSite} {wrapper : FuncId} {g : Func}
    (hg : m.funcs.get? wrapper = some g) :
    (unwrapCall site wrapper).apply m =
      match (m.handOver g site.caller).inlineAt site with
      | .ok r => (.ok (), r.2)
      | .error e => (.error e, m.handOver g site.caller) := by
  simp only [unwrapCall, ModuleM.apply_bind, ModuleM.apply_func, hg, ModuleM.apply_change,
    ModuleM.apply_edit, Module.handOver]
  cases (m.modifyFunc site.caller fun f => f.annotate g.annotations).inlineAt site <;> rfl

/-- A step ends the walk, fails for a reason of its own, or is a move. -/
theorem step_apply (w : WrapperWalk) (m : Module) :
    (w.step.apply m = (.ok none, m) ∧ w.path = [] ∧ w.pending = []) ∨
      (∃ e m', w.step.apply m = (.error e, m') ∧ e ≠ .outOfSteps) ∨
        ∃ w' m', w.step.apply m = (.ok (some w'), m') ∧ Moves w m w' m' := by
  rw [step]
  split
  · next hpath hpending => exact Or.inl ⟨rfl, hpath, hpending⟩
  · next kernel rest hpath hpending =>
      refine Or.inr (Or.inr ?_)
      cases hv : w.visited kernel with
      | true => exact ⟨_, _, rfl, .skip hpath hpending hv⟩
      | false => exact ⟨_, _, rfl, .start hpath hpending hv⟩
  · next id outer hpath =>
      simp only [ModuleM.apply_bind, ModuleM.apply_func, ModuleM.apply_get]
      cases hf : m.funcs.get? id with
      | none => exact Or.inr (Or.inl ⟨_, _, rfl, by simp⟩)
      | some f =>
          dsimp only
          cases hnext : w.nextStep? m f with
          | none => exact Or.inr (Or.inr ⟨_, _, rfl, .leave hpath hf hnext⟩)
          | some s =>
              cases s with
              | descend callee => exact Or.inr (Or.inr ⟨_, _, rfl, .descend hpath hf hnext⟩)
              | unwrap pos wrapper =>
                  obtain ⟨call, g, -, -, hg, -⟩ := nextStep?_eq_unwrap hnext
                  dsimp only
                  split_ifs with hactive hdone
                  · refine Or.inr (Or.inl ⟨.wrapperCycle g.name, m, ?_, by simp⟩)
                    rw [ModuleM.apply_bind, ModuleM.apply_func, hg]
                    rfl
                  · rw [ModuleM.apply_bind, unwrapCall_apply hg]
                    cases hi : (m.handOver g id).inlineAt ⟨id, pos⟩ with
                    | error e =>
                        refine Or.inr (Or.inl ⟨e, _, rfl, fun he => ?_⟩)
                        exact Module.inlineAt_ne_outOfSteps _ _ (he ▸ hi)
                    | ok r =>
                        exact Or.inr (Or.inr
                          ⟨_, r.2, rfl, .unwrap hpath hf hnext hactive hdone hg hi⟩)
                  · exact Or.inr (Or.inr ⟨_, _, rfl, .enter hpath hf hnext hactive hdone⟩)

theorem Moves.step_apply {w w' : WrapperWalk} {m m' : Module} (h : Moves w m w' m') :
    w.step.apply m = (.ok (some w'), m') := by
  cases h with
  | skip hpath hpending hvisited => simp [step, hpath, hpending, hvisited]
  | start hpath hpending hvisited => simp [step, hpath, hpending, hvisited]
  | leave hpath hf hnext =>
      simp only [step, hpath, ModuleM.apply_bind, ModuleM.apply_func, ModuleM.apply_get, hf, hnext,
        ModuleM.apply_pure]
  | descend hpath hf hnext =>
      simp only [step, hpath, ModuleM.apply_bind, ModuleM.apply_func, ModuleM.apply_get, hf, hnext,
        ModuleM.apply_pure]
  | enter hpath hf hnext hactive hdone =>
      rw [hpath] at hactive
      simp only [step, hpath, ModuleM.apply_bind, ModuleM.apply_func, ModuleM.apply_get, hf, hnext,
        hactive, hdone, if_false, ModuleM.apply_pure]
  | unwrap hpath hf hnext hactive hdone hg hinline =>
      rw [hpath] at hactive
      simp only [step, hpath, ModuleM.apply_bind, ModuleM.apply_func, ModuleM.apply_get, hf, hnext,
        hactive, hdone, if_false, if_true, ModuleM.apply_pure, unwrapCall_apply hg, hinline]

theorem run_zero_apply (w : WrapperWalk) (m : Module) :
    (run 0 w).apply m = (.error .outOfSteps, m) := rfl

theorem run_succ_apply (steps : Nat) (w : WrapperWalk) (m : Module) :
    (run (steps + 1) w).apply m =
      match w.step.apply m with
      | (.ok none, m') => (.ok w.inlined, m')
      | (.ok (some next), m') => (run steps next).apply m'
      | (.error e, m') => (.error e, m') := by
  rw [run, ModuleM.apply_bind]
  rcases w.step.apply m with ⟨r, m'⟩
  rcases r with e | next
  · rfl
  · cases next <;> rfl

/-- A cycle is reported before anything is inlined. -/
theorem step_eq_wrapperCycle {w : WrapperWalk} {m m' : Module} {name : String}
    (h : w.step.apply m = (.error (.wrapperCycle name), m')) :
    m' = m ∧ ∃ id outer f pos wrapper g, w.path = id :: outer ∧ m.funcs.get? id = some f ∧
      w.nextStep? m f = some (.unwrap pos wrapper) ∧ wrapper ∈ w.path ∧
        m.funcs.get? wrapper = some g ∧ g.name = name := by
  rw [step] at h
  split at h
  · cases h
  · split_ifs at h <;> cases h
  · next id outer hpath =>
      simp only [ModuleM.apply_bind, ModuleM.apply_func, ModuleM.apply_get] at h
      cases hf : m.funcs.get? id with
      | none =>
          rw [hf] at h
          cases h
      | some f =>
          rw [hf] at h
          dsimp only at h
          cases hnext : w.nextStep? m f with
          | none =>
              rw [hnext] at h
              cases h
          | some s =>
              rw [hnext] at h
              cases s with
              | descend callee => cases h
              | unwrap pos wrapper =>
                  obtain ⟨call, g, -, -, hg, -⟩ := nextStep?_eq_unwrap hnext
                  dsimp only at h
                  split_ifs at h with hactive hdone
                  · rw [ModuleM.apply_bind, ModuleM.apply_func, hg] at h
                    cases h
                    exact ⟨rfl, id, outer, f, pos, wrapper, g, hpath, hf, hnext, hpath ▸ hactive,
                      hg, rfl⟩
                  · rw [ModuleM.apply_bind, unwrapCall_apply hg] at h
                    cases hi : (m.handOver g id).inlineAt ⟨id, pos⟩ with
                    | error e =>
                        rw [hi] at h
                        cases h
                        simpa using Module.inlineAt_eq_error hi
                    | ok r =>
                        rw [hi] at h
                        cases h
                  · cases h

/-- What every move keeps holds when a run ends. -/
theorem run_eq_ok {P : WrapperWalk → Module → Prop}
    (hP : ∀ {w m w' m'}, P w m → Moves w m w' m' → P w' m') {steps n : Nat} {w : WrapperWalk}
    {m m' : Module} (hw : P w m) (h : (run steps w).apply m = (.ok n, m')) :
    ∃ w', P w' m' ∧ w'.path = [] ∧ w'.pending = [] := by
  induction steps generalizing w m with
  | zero =>
      rw [run_zero_apply] at h
      cases h
  | succ steps ih =>
      rw [run_succ_apply] at h
      rcases w.step_apply m with ⟨hs, hpath, hpending⟩ | ⟨e, m₁, hs, -⟩ | ⟨w₁, m₁, hs, hmove⟩
      · rw [hs] at h
        cases h
        exact ⟨w, hw, hpath, hpending⟩
      · rw [hs] at h
        cases h
      · rw [hs] at h
        exact ih (hP hw hmove) h

/-- What every move keeps holds when a run fails, unless it runs out of steps. -/
theorem run_eq_error {P : WrapperWalk → Module → Prop}
    (hP : ∀ {w m w' m'}, P w m → Moves w m w' m' → P w' m') {steps : Nat} {w : WrapperWalk}
    {m m' : Module} {e : Failure} (hw : P w m) (h : (run steps w).apply m = (.error e, m'))
    (he : e ≠ .outOfSteps) : ∃ w' m₁, P w' m₁ ∧ w'.step.apply m₁ = (.error e, m') := by
  induction steps generalizing w m with
  | zero =>
      rw [run_zero_apply] at h
      cases h
      exact absurd rfl he
  | succ steps ih =>
      rw [run_succ_apply] at h
      rcases w.step_apply m with ⟨hs, -⟩ | ⟨e', m₁, hs, -⟩ | ⟨w₁, m₁, hs, hmove⟩
      · rw [hs] at h
        cases h
      · rw [hs] at h
        cases h
        exact ⟨w, m, hw, hs⟩
      · rw [hs] at h
        exact ih (hP hw hmove) h

end WrapperWalk

end KernelIR
