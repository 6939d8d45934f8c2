import KernelIR.Proofs.Inline.Calls
import KernelIR.Proofs.Symbols
import KernelIR.Proofs.Wrapper.Unwrapped
import Mathlib

/-!
# Nested unwrapping

The walk visits each function once, so that it can only go on forever by inlining finished
wrappers into one function.  A pasted body can contain further wrapper calls, since a parameter
that it calls may have become a wrapper.  Each block carries the depth at which it was pasted;
the walk ends exactly when the depth of the calls that it inlines is bounded.
-/

namespace KernelIR

/-- How many pastes deep each block of each function is. -/
abbrev Depths := FuncId → Label → Nat

/-- Inlining at `site` pastes blocks one deeper than the call; the tail of the block of the call
stays where it is. -/
def Depths.paste (d : Depths) (f : Func) (site : CallSite) : Depths := fun id l =>
  if id ≠ site.caller ∨ f.body.contains l = true then d id l
  else if l = f.nextLabel then d id site.pos.label
  else d id site.pos.label + 1

namespace Depths

theorem paste_of_contains (d : Depths) (f : Func) (site : CallSite) {l : Label}
    (h : f.body.contains l = true) : d.paste f site site.caller l = d site.caller l := by
  simp [paste, h]

theorem paste_of_ne (d : Depths) (f : Func) (site : CallSite) {id : FuncId} (h : id ≠ site.caller)
    (l : Label) : d.paste f site id l = d id l := by
  simp [paste, h]

theorem paste_nextLabel (d : Depths) (f : Func) (site : CallSite) :
    d.paste f site site.caller f.nextLabel = d site.caller site.pos.label := by
  simp [paste, Func.contains_nextLabel]

/-- The blocks that stand for those of the caller are as deep as these. -/
theorem paste_of_mem (d : Depths) {f : Func} (site : CallSite) {e : Label × Block} {l : Label}
    (he : e ∈ f.body.entries) (h : l = e.1 ∨ l = f.nextLabel ∧ e.1 = site.pos.label) :
    d.paste f site site.caller l = d site.caller e.1 := by
  rcases h with rfl | ⟨rfl, h⟩
  · exact d.paste_of_contains f site (OrderedMap.contains_iff.2 (List.mem_map_of_mem he))
  · rw [paste_nextLabel, h]

theorem paste_of_lt (d : Depths) (f : Func) (site : CallSite) {l : Nat} (h : f.nextLabel < l) :
    d.paste f site site.caller l = d site.caller site.pos.label + 1 := by
  have hnot : f.body.contains l = false := Bool.eq_false_iff.2 fun hc =>
    Nat.lt_asymm h (Func.lt_nextLabel (OrderedMap.contains_iff.1 hc))
  have hne : l ≠ f.nextLabel := Nat.ne_of_gt h
  simp [paste, hnot, hne]

end Depths

namespace WrapperWalk

/-- The function being visited and the call in it that the next step inlines, if it does. -/
def unwrapSite? (w : WrapperWalk) (m : Module) : Option (Func × CallSite) :=
  w.path.head?.bind fun id =>
    (m.funcs.get? id).bind fun f =>
      match w.nextStep? m f with
      | some (.unwrap pos wrapper) =>
        if !w.path.contains wrapper && w.done.contains wrapper then some (f, ⟨id, pos⟩) else none
      | _ => none

def nextDepths (w : WrapperWalk) (m : Module) (d : Depths) : Depths :=
  match w.unwrapSite? m with
  | some (f, site) => d.paste f site
  | none => d

/-- The points of a walk from `kernels` in `start`, each with the depths of its blocks. -/
inductive Walks (kernels : List FuncId) (start : Module) : WrapperWalk → Module → Depths → Prop
  | init : Walks kernels start { pending := kernels } start fun _ _ => 0
  | move {w w' : WrapperWalk} {m m' : Module} {d : Depths} (h : Walks kernels start w m d)
      (hmove : Moves w m w' m') : Walks kernels start w' m' (w.nextDepths m d)

/-- No call deeper than `bound` is ever inlined. -/
def NestsWithin (kernels : List FuncId) (start : Module) (bound : Nat) : Prop :=
  ∀ w m d, Walks kernels start w m d → ∀ f site, w.unwrapSite? m = some (f, site) →
    d site.caller site.pos.label ≤ bound

theorem unwrapSite?_of_path {w : WrapperWalk} {m : Module} {id : FuncId} {outer : List FuncId}
    {f : Func} (hpath : w.path = id :: outer) (hf : m.funcs.get? id = some f) :
    w.unwrapSite? m = match w.nextStep? m f with
      | some (.unwrap pos wrapper) =>
        if !w.path.contains wrapper && w.done.contains wrapper then some (f, ⟨id, pos⟩) else none
      | _ => none := by
  rw [unwrapSite?, hpath]
  simp [hf]

theorem Walks.explored {kernels : List FuncId} {start m : Module} {w : WrapperWalk} {d : Depths}
    (h : Walks kernels start w m d) : Explored kernels start w m := by
  induction h with
  | init => exact .init kernels start
  | move _ hmove ih => exact ih.moves hmove

theorem Walks.isSome_get? {kernels : List FuncId} {start m : Module} {w : WrapperWalk}
    {d : Depths} (h : Walks kernels start w m d) (id : FuncId) :
    (m.funcs.get? id).isSome = (start.funcs.get? id).isSome := by
  induction h with
  | init => rfl
  | move _ hmove ih => rw [hmove.isSome_get?, ih]

def unvisited (start : Module) (w : WrapperWalk) : Finset FuncId :=
  start.funcs.ids.toFinset.filter fun id => w.visited id = false

def doneCalls (w : WrapperWalk) (m : Module) : Nat :=
  (w.done.map fun id => ((m.funcs.get? id).map Func.callTotal).getD 0).sum

/-- The calls of the function being visited, the less deep ones weighted so that one of them
outweighs all calls that a paste adds. -/
def topWeight (bound : Nat) (w : WrapperWalk) (m : Module) (d : Depths) : Nat :=
  (w.path.head?.bind fun id => (m.funcs.get? id).map fun f =>
    f.weight fun l => (w.doneCalls m + 1) ^ (bound + 1 - d id l)).getD 0

variable {kernels : List FuncId} {start m m' : Module} {w w' : WrapperWalk} {d : Depths}

theorem unvisited_congr (h : ∀ id, w'.visited id = w.visited id) :
    unvisited start w' = unvisited start w :=
  Finset.filter_congr fun id _ => by rw [h]

theorem unvisited_subset (h : ∀ id, w.visited id = true → w'.visited id = true) :
    unvisited start w' ⊆ unvisited start w := by
  intro id hid
  obtain ⟨hmem, hv⟩ := Finset.mem_filter.1 hid
  refine Finset.mem_filter.2 ⟨hmem, Bool.eq_false_iff.2 fun hv' => ?_⟩
  rw [h id hv'] at hv
  cases hv

theorem unvisited_card_lt {id : FuncId} (hid : (start.funcs.get? id).isSome = true)
    (hv : w.visited id = false) (hpath : w'.path = id :: w.path) (hdone : w'.done = w.done) :
    (unvisited start w').card < (unvisited start w).card := by
  refine Finset.card_lt_card (Finset.ssubset_iff_of_subset (unvisited_subset ?_) |>.2 ⟨id, ?_, ?_⟩)
  · intro id' h
    rw [visited_iff] at h ⊢
    rw [hpath, hdone]
    exact h.imp_left (List.mem_cons_of_mem _)
  · exact Finset.mem_filter.2 ⟨by simpa using Arena.mem_ids_iff.2 hid, hv⟩
  · intro h
    have hv' := (Finset.mem_filter.1 h).2
    rw [visited_iff.2 (Or.inl (hpath ▸ List.mem_cons_self))] at hv'
    cases hv'

theorem callTotal_le_doneCalls {id : FuncId} {g : Func} (hid : id ∈ w.done)
    (hg : m.funcs.get? id = some g) : g.callTotal ≤ w.doneCalls m := by
  refine List.le_sum_of_mem (List.mem_map.2 ⟨id, hid, ?_⟩)
  rw [hg]
  rfl

theorem topWeight_of_path {bound : Nat} {id : FuncId} {outer : List FuncId} {f : Func}
    (hpath : w.path = id :: outer) (hf : m.funcs.get? id = some f) :
    w.topWeight bound m d = f.weight fun l => (w.doneCalls m + 1) ^ (bound + 1 - d id l) := by
  simp [topWeight, hpath, hf]

/-- Inlining a finished wrapper at a call that is not too deep takes from the weight of the
caller. -/
theorem topWeight_paste_lt {bound : Nat} {id wrapper : FuncId} {outer : List FuncId} {f g : Func}
    {pos : Position} {cont : Label} (h : Walks kernels start w m d)
    (hpath : w.path = id :: outer) (hf : m.funcs.get? id = some f)
    (hnext : w.nextStep? m f = some (.unwrap pos wrapper)) (hdone : wrapper ∈ w.done)
    (hg : m.funcs.get? wrapper = some g)
    (hinline : (m.handOver g id).inlineAt ⟨id, pos⟩ = .ok (cont, m'))
    (hdepth : d id pos.label ≤ bound) :
    w.topWeight bound m' (d.paste f ⟨id, pos⟩) < w.topWeight bound m d := by
  have htop : id ∉ w.done := fun hd =>
    (List.nodup_append.1 h.explored.nodup).2.2 id (hpath ▸ List.mem_cons_self) id hd rfl
  obtain ⟨call, target, callee, f', hcall, hres, hcallee, hs, hf', hother⟩ :=
    Module.handOver_inlineAt_eq_ok hf hinline
  obtain ⟨call', g', hmem, hres', hg', -⟩ := nextStep?_eq_unwrap hnext
  obtain rfl : call = call' :=
    Except.ok.inj (hcall.symm.trans (Func.mem_calls_iff.1 hmem))
  obtain rfl : target = wrapper := Option.some.inj (hres.symm.trans hres')
  have hcalls : w.doneCalls m' = w.doneCalls m := by
    refine congrArg List.sum (List.map_congr_left fun id' hid' => ?_)
    rw [hother id' fun he => htop (he ▸ hid')]
  rw [topWeight_of_path hpath hf, topWeight_of_path hpath hf', hcalls]
  have hw := Inline.weight_splice hs hcall
    (fun l => (w.doneCalls m + 1) ^ (bound + 1 - d id l))
    (fun l => (w.doneCalls m + 1) ^ (bound + 1 - d.paste f ⟨id, pos⟩ id l))
    ((w.doneCalls m + 1) ^ (bound - d id pos.label))
    (fun l hl => congrArg (fun n => (w.doneCalls m + 1) ^ (bound + 1 - n))
      (d.paste_of_contains f ⟨id, pos⟩ hl))
    (congrArg (fun n => (w.doneCalls m + 1) ^ (bound + 1 - n)) (d.paste_nextLabel f ⟨id, pos⟩))
    (fun l hl => by
      have hp := d.paste_of_lt f ⟨id, pos⟩ (l := l) hl
      simp only [hp, Nat.add_sub_add_right])
  have hbig : callee.callTotal * (w.doneCalls m + 1) ^ (bound - d id pos.label) <
      (w.doneCalls m + 1) ^ (bound + 1 - d id pos.label) := by
    rw [Nat.sub_add_comm hdepth, Nat.pow_succ']
    exact Nat.mul_lt_mul_of_pos_right (Nat.lt_succ_of_le (callTotal_le_doneCalls hdone hcallee))
      (Nat.pow_pos (Nat.succ_pos _))
  have hold : (f.annotate g.annotations).weight
      (fun l => (w.doneCalls m + 1) ^ (bound + 1 - d id l)) =
        f.weight fun l => (w.doneCalls m + 1) ^ (bound + 1 - d id l) := rfl
  omega

theorem unwrapSite?_unwrap {id wrapper : FuncId} {outer : List FuncId} {f : Func} {pos : Position}
    (hpath : w.path = id :: outer) (hf : m.funcs.get? id = some f)
    (hnext : w.nextStep? m f = some (.unwrap pos wrapper)) (hactive : wrapper ∉ w.path)
    (hdone : wrapper ∈ w.done) : w.unwrapSite? m = some (f, ⟨id, pos⟩) := by
  rw [unwrapSite?_of_path hpath hf, hnext]
  simp [hactive, hdone]

/-- What goes down, lexicographically, as long as nothing too deep is inlined. -/
def fuel (bound : Nat) (start : Module) (w : WrapperWalk) (m : Module) (d : Depths) :
    Nat × Nat × Nat × Nat :=
  ((unvisited start w).card, w.pending.length, w.path.length, w.topWeight bound m d)

def Less : Nat × Nat × Nat × Nat → Nat × Nat × Nat × Nat → Prop :=
  Prod.Lex (· < ·) (Prod.Lex (· < ·) (Prod.Lex (· < ·) (· < ·)))

theorem less_wf : WellFounded Less :=
  WellFounded.prod_lex Nat.lt_wfRel.wf (WellFounded.prod_lex Nat.lt_wfRel.wf
    (WellFounded.prod_lex Nat.lt_wfRel.wf Nat.lt_wfRel.wf))

theorem fuel_less_of_pending {bound : Nat} {d' : Depths}
    (hvisited : ∀ id, w.visited id = true → w'.visited id = true)
    (hpending : w'.pending.length < w.pending.length) :
    Less (fuel bound start w' m' d') (fuel bound start w m d) := by
  have hsub : unvisited start w' ⊆ unvisited start w := unvisited_subset hvisited
  rcases Nat.lt_or_eq_of_le (Finset.card_le_card hsub) with hlt | heq
  · exact Prod.Lex.left _ _ hlt
  · rw [fuel, fuel, heq]
    exact Prod.Lex.right _ (Prod.Lex.left _ _ hpending)

theorem fuel_less {bound : Nat} (hbound : NestsWithin kernels start bound)
    (h : Walks kernels start w m d) (hmove : Moves w m w' m') :
    Less (fuel bound start w' m' (w.nextDepths m d)) (fuel bound start w m d) := by
  have hlive : ∀ {id f}, m.funcs.get? id = some f → (start.funcs.get? id).isSome = true :=
    fun hf => by rw [← h.isSome_get?, hf]; rfl
  cases hmove with
  | @skip kernel rest hpath hpending hvisited =>
      exact fuel_less_of_pending (fun _ h => h) (by rw [hpending]; exact Nat.lt_succ_self _)
  | @start kernel rest hpath hpending hvisited =>
      refine fuel_less_of_pending (fun id h => ?_) (by rw [hpending]; exact Nat.lt_succ_self _)
      rw [visited_iff] at h ⊢
      exact h.imp_left fun h => absurd h (by simp [hpath])
  | @leave id outer f hpath hf hnext =>
      have hsame : unvisited start { w with path := outer, done := id :: w.done } =
          unvisited start w := unvisited_congr fun id' => by
        rw [Bool.eq_iff_iff, visited_iff, visited_iff, hpath, List.mem_cons, List.mem_cons]
        tauto
      rw [fuel, fuel, hsame, hpath]
      exact Prod.Lex.right _ (Prod.Lex.right _ (Prod.Lex.left _ _ (Nat.lt_succ_self _)))
  | @descend id callee outer f hpath hf hnext =>
      obtain ⟨hv, -, g, -, -, hg, -⟩ := nextStep?_eq_descend hnext
      exact Prod.Lex.left _ _ (unvisited_card_lt (hlive hg) hv rfl rfl)
  | @enter id wrapper outer f pos hpath hf hnext hactive hdone =>
      obtain ⟨-, g, -, -, hg, -⟩ := nextStep?_eq_unwrap hnext
      exact Prod.Lex.left _ _ (unvisited_card_lt (hlive hg)
        (by simp [visited, hactive, hdone]) rfl rfl)
  | @unwrap id wrapper outer f g pos cont m' hpath hf hnext hactive hdone hg hinline =>
      have hsite := unwrapSite?_unwrap hpath hf hnext hactive hdone
      have hdepth : d id pos.label ≤ bound := hbound w m d h f ⟨id, pos⟩ hsite
      have hless := topWeight_paste_lt h hpath hf hnext hdone hg hinline hdepth
      rw [nextDepths, hsite]
      exact Prod.Lex.right _ (Prod.Lex.right _ (Prod.Lex.right _ hless))

theorem exists_steps {bound : Nat} (hbound : NestsWithin kernels start bound)
    (h : Walks kernels start w m d) :
    ∃ steps, ((run steps w).apply m).1 ≠ .error .outOfSteps := by
  induction hn : fuel bound start w m d using less_wf.induction generalizing w m d with
  | _ n ih =>
      subst hn
      rcases w.step_apply m with ⟨hs, -⟩ | ⟨e, m₁, hs, he⟩ | ⟨w₁, m₁, hs, hmove⟩
      · exact ⟨1, by simp [run_succ_apply, hs]⟩
      · exact ⟨1, by simpa [run_succ_apply, hs] using he⟩
      · obtain ⟨steps, hsteps⟩ := ih _ (fuel_less hbound h hmove) (h.move hmove) rfl
        exact ⟨steps + 1, by rwa [run_succ_apply, hs]⟩

theorem nextDepths_le {n : Nat} (hd : ∀ id l, d id l ≤ n) (id : FuncId) (l : Label) :
    w.nextDepths m d id l ≤ n + 1 := by
  rw [nextDepths]
  cases w.unwrapSite? m with
  | none => exact Nat.le_succ_of_le (hd id l)
  | some e =>
      simp only [Depths.paste]
      split_ifs
      · exact Nat.le_succ_of_le (hd id l)
      · exact Nat.le_succ_of_le (hd id _)
      · exact Nat.succ_le_succ (hd id _)

/-- A point of a walk is reached after a number of steps, which bounds the depths. -/
theorem Walks.exists_steps (h : Walks kernels start w m d) :
    ∃ n, (∀ id l, d id l ≤ n) ∧
      (∀ steps, (run (n + steps) { pending := kernels }).apply start = (run steps w).apply m) ∧
        ∀ k ≤ n, ((run k { pending := kernels }).apply start).1 = .error .outOfSteps := by
  induction h with
  | init => exact ⟨0, fun _ _ => Nat.le_refl 0, fun steps => by rw [Nat.zero_add],
      fun k hk => by rw [Nat.le_zero.1 hk]; rfl⟩
  | @move w w' m m' d _ hmove ih =>
      obtain ⟨n, hd, hrun, hend⟩ := ih
      have hnext : ∀ steps, (run (n + 1 + steps) { pending := kernels }).apply start =
          (run steps w').apply m' := by
        intro steps
        rw [Nat.add_assoc, Nat.add_comm 1, hrun, run_succ_apply, hmove.step_apply]
      refine ⟨n + 1, nextDepths_le hd, hnext, fun k hk => ?_⟩
      rcases Nat.le_succ_iff.1 hk with hk | rfl
      · exact hend k hk
      · rw [show n.succ = n + 1 + 0 from rfl, hnext]
        rfl

end WrapperWalk

theorem unwrapWrappers_ends_of_nestsWithin {mode : KernelMode} {m : Module} {bound : Nat}
    (h : WrapperWalk.NestsWithin (m.withRole mode .kernel) m bound) :
    ∃ steps, ((unwrapWrappers mode steps).apply m).1 ≠ .error .outOfSteps := by
  simp only [unwrapWrappers, ModuleM.apply_bind, ModuleM.apply_get]
  exact WrapperWalk.exists_steps h .init

/-- Unwrapping comes to an end, be it an error, exactly if there is a bound on how deep the
wrapper calls that it inlines are nested. -/
theorem unwrapWrappers_ends_iff (mode : KernelMode) (m : Module) :
    (∃ steps, ((unwrapWrappers mode steps).apply m).1 ≠ .error .outOfSteps) ↔
      ∃ bound, WrapperWalk.NestsWithin (m.withRole mode .kernel) m bound := by
  constructor
  · rintro ⟨steps, hsteps⟩
    simp only [unwrapWrappers, ModuleM.apply_bind, ModuleM.apply_get] at hsteps
    refine ⟨steps, fun w m' d h f site _ => ?_⟩
    obtain ⟨n, hd, -, hend⟩ := h.exists_steps
    have hlt : n < steps := Nat.lt_of_not_le fun hle => hsteps (hend steps hle)
    exact Nat.le_trans (hd _ _) (Nat.le_of_lt hlt)
  · rintro ⟨bound, hbound⟩
    exact unwrapWrappers_ends_of_nestsWithin hbound

namespace selfCall

def wrapperId : FuncId := ⟨2, 1⟩

/-- Calls its parameter with that parameter. -/
def wrapper : Func where
  name := "wrapper"
  params := [⟨none, .privatePtr⟩]
  retTy := .void
  body := .ofList [(.entry, ⟨[.call ⟨none, .void, .indirect (.arg 0), [.arg 0], .c⟩], .ret none⟩)]
  attributes := { strings := .ofList [(wrapperKey, "")] }

def kernel : Func where
  name := "kernel"
  params := []
  retTy := .void
  body := .ofList [(.entry,
    ⟨[.call ⟨none, .void, .direct wrapperId, [.func wrapperId], .c⟩], .ret none⟩)]
  conv := .spirKernel

def module : Module where
  funcs := .ofList [kernel, wrapper]

/-- A call of the wrapper with the wrapper. -/
def IsSelfCall (c : Call) : Prop :=
  c.callee.resolve? = some wrapperId ∧ c.args = [.func wrapperId] ∧ c.dest = none

/-- The kernel is being visited and makes self calls only. -/
structure Endless (w : WrapperWalk) (m : Module) : Prop where
  path : w.path = [⟨1, 1⟩]
  done : w.done = [wrapperId]
  wrapper_live : m.funcs.get? wrapperId = some wrapper
  kernel_live : ∃ f, m.funcs.get? ⟨1, 1⟩ = some f ∧ (∃ c, f.HasCall c) ∧
    ∀ c, f.HasCall c → IsSelfCall c

theorem hasCall_iff_of_entries {f : Func} {l : Label} {c c' : Call} {t : Terminator}
    (h : f.body.entries = [(l, ⟨[.call c], t⟩)]) : f.HasCall c' ↔ c' = c := by
  simp [Func.HasCall, h]

theorem wrapper_hasCall_iff {c : Call} :
    wrapper.HasCall c ↔ c = ⟨none, .void, .indirect (.arg 0), [.arg 0], .c⟩ :=
  hasCall_iff_of_entries rfl

theorem kernel_hasCall_iff {c : Call} :
    kernel.HasCall c ↔ c = ⟨none, .void, .direct wrapperId, [.func wrapperId], .c⟩ :=
  hasCall_iff_of_entries rfl

/-- The copied call gets the wrapper for its parameter. -/
theorem isSelfCall_copy {f : Func} {call c₀ c : Call} (h : IsSelfCall call)
    (hc₀ : wrapper.HasCall c₀) (hc : (Inline.copy f call wrapper).instr (.call c₀) = .call c) :
    IsSelfCall c := by
  obtain ⟨-, hargs, -⟩ := h
  obtain rfl := wrapper_hasCall_iff.1 hc₀
  simp only [Splice.instr, Instr.mapDest, Instr.mapOperands, Instr.mapPhiLabels,
    Callee.mapOperands, Splice.operand, Inline.copy, hargs, Instr.call.injEq] at hc
  subst hc
  exact ⟨rfl, rfl, rfl⟩

theorem Endless.inlinable {w : WrapperWalk} {m : Module} {f : Func} {c : Call} {pos : Position}
    (h : Endless w m) (hf : m.funcs.get? ⟨1, 1⟩ = some f) (hc : f.callAt pos = .ok c)
    (hself : IsSelfCall c) :
    Inline.Inlinable (m.handOver wrapper ⟨1, 1⟩) ⟨⟨1, 1⟩, pos⟩ (f.annotate wrapper.annotations) c
      wrapperId wrapper where
  caller_live := by simp [Module.handOver, Module.modifyFunc, hf]
  call_at := hc
  resolves := hself.1
  not_recursive := by
    change wrapperId ≠ ⟨1, 1⟩
    decide
  callee_live := by
    rw [Module.handOver, Module.modifyFunc, Arena.get?_modify_of_ne _ (by decide), h.wrapper_live]
  defined := by decide +kernel
  arity := by rw [hself.2.1]; rfl
  callee_ssa := by decide +kernel
  labels := by decide +kernel

theorem nextStep?_of_isSelfCall {w : WrapperWalk} {m : Module} {f : Func} {c : Call}
    (hw : m.funcs.get? wrapperId = some wrapper) (hc : f.HasCall c)
    (hself : ∀ c, f.HasCall c → IsSelfCall c) :
    ∃ pos c, f.callAt pos = .ok c ∧ IsSelfCall c ∧
      w.nextStep? m f = some (.unwrap pos wrapperId) := by
  obtain ⟨pos, hmem⟩ := Func.hasCall_iff.1 hc
  obtain ⟨⟨pos, c⟩, es, hcalls⟩ := List.exists_cons_of_ne_nil (List.ne_nil_of_mem hmem)
  have hfirst : (pos, c) ∈ f.calls := hcalls ▸ List.mem_cons_self
  have hsc := hself c (Func.hasCall_iff.2 ⟨pos, hfirst⟩)
  have hiswrapper : wrapper.isWrapper = true := by decide +kernel
  refine ⟨pos, c, Func.mem_calls_iff.1 hfirst, hsc, ?_⟩
  rw [WrapperWalk.nextStep?_eq, hcalls, List.findSome?_cons]
  simp [WrapperWalk.callStep?, hsc.1, hw, hiswrapper]

theorem Endless.moves {w : WrapperWalk} {m : Module} (h : Endless w m) :
    ∃ w' m', WrapperWalk.Moves w m w' m' ∧ Endless w' m' := by
  obtain ⟨f, hf, ⟨c, hc⟩, hself⟩ := h.kernel_live
  obtain ⟨pos, c, hcall, hsc, hnext⟩ := nextStep?_of_isSelfCall (w := w) h.wrapper_live hc hself
  have hcall' : (f.annotate wrapper.annotations).callAt pos = .ok c := hcall
  obtain ⟨cont, f', hs⟩ := Inline.exists_splice wrapper hcall'
  have hinline := (h.inlinable hf hcall hsc).inlineAt_eq hs
  obtain ⟨hother, -⟩ := Module.handOver_inlineAt hf hinline
  refine ⟨_, _, .unwrap h.path hf hnext (by rw [h.path]; decide) (by rw [h.done]; decide)
    h.wrapper_live hinline, h.path, h.done, ?_, f', ?_, ?_, ?_⟩
  · rw [hother wrapperId (by decide), h.wrapper_live]
  · simp [Module.setFunc, Arena.set, Module.handOver, Module.modifyFunc, hf]
  · exact Inline.exists_hasCall_splice hs hcall (wrapper_hasCall_iff.2 rfl)
  · intro c' hc'
    obtain ⟨i, hi, hi'⟩ := Inline.hasCall_splice hs hcall hc'
    have hread : Inline.resultRead c
        (Inline.copy (f.annotate wrapper.annotations) c wrapper).returns = id := by
      simp [Inline.resultRead, hsc.2.2]
    rw [hread, Instr.mapOperands_id] at hi
    subst hi
    rcases hi' with ⟨c₀, hc₀, heq⟩ | ⟨c₀, hc₀, heq⟩
    · cases heq
      exact hself c' hc₀
    · exact isSelfCall_copy hsc hc₀ heq.symm

theorem Endless.run {w : WrapperWalk} {m : Module} (h : Endless w m) (steps : Nat) :
    ((WrapperWalk.run steps w).apply m).1 = .error .outOfSteps := by
  induction steps generalizing w m with
  | zero => rfl
  | succ steps ih =>
      obtain ⟨w', m', hmove, h'⟩ := h.moves
      rw [WrapperWalk.run_succ_apply, hmove.step_apply]
      exact ih h'

theorem run_before {w w' : WrapperWalk} {m m' : Module} (h : WrapperWalk.Moves w m w' m')
    (h' : ∀ steps, ((WrapperWalk.run steps w').apply m').1 = .error .outOfSteps) (steps : Nat) :
    ((WrapperWalk.run steps w).apply m).1 = .error .outOfSteps := by
  cases steps with
  | zero => rfl
  | succ steps =>
      rw [WrapperWalk.run_succ_apply, h.step_apply]
      exact h' steps

/-- The walk enters the wrapper from the kernel, leaves it as done, and is back in the kernel. -/
theorem run_module (steps : Nat) :
    ((WrapperWalk.run steps { pending := [⟨1, 1⟩] }).apply module).1 = .error .outOfSteps := by
  have hkernel : module.funcs.get? ⟨1, 1⟩ = some kernel := rfl
  have hwrapper : module.funcs.get? wrapperId = some wrapper := rfl
  have hself : ∀ c, kernel.HasCall c → IsSelfCall c := by
    intro c hc
    rw [kernel_hasCall_iff.1 hc]
    exact ⟨rfl, rfl, rfl⟩
  obtain ⟨pos, c, -, -, hnext⟩ := nextStep?_of_isSelfCall (m := module)
    (w := { pending := [], path := [⟨1, 1⟩] }) hwrapper (kernel_hasCall_iff.2 rfl) hself
  have hstart : WrapperWalk.Moves { pending := [⟨1, 1⟩] } module
      { pending := [], path := [⟨1, 1⟩] } module := .start rfl rfl rfl
  have henter : WrapperWalk.Moves { pending := [], path := [⟨1, 1⟩] } module
      { pending := [], path := [wrapperId, ⟨1, 1⟩] } module :=
    .enter rfl hkernel hnext (by decide) (by decide)
  have hleave : WrapperWalk.Moves { pending := [], path := [wrapperId, ⟨1, 1⟩] } module
      { pending := [], path := [⟨1, 1⟩], done := [wrapperId] } module :=
    .leave rfl hwrapper (by decide +kernel)
  have hback : Endless { pending := [], path := [⟨1, 1⟩], done := [wrapperId] } module :=
    ⟨rfl, rfl, hwrapper, kernel, hkernel, ⟨_, kernel_hasCall_iff.2 rfl⟩, hself⟩
  exact run_before hstart (run_before henter (run_before hleave hback.run)) steps

end selfCall

-- A finished wrapper is no longer on the path, so that its cycle is not noticed.
theorem selfCall_never_ends :
    ¬∃ steps, ((unwrapWrappers .callingConvention steps).apply selfCall.module).1 ≠
      .error .outOfSteps := by
  rintro ⟨steps, h⟩
  have hpending : selfCall.module.withRole .callingConvention .kernel = [⟨1, 1⟩] := by
    decide +kernel
  rw [unwrapWrappers, ModuleM.apply_bind, ModuleM.apply_get] at h
  dsimp only at h
  rw [hpending] at h
  exact h (selfCall.run_module steps)

end KernelIR
