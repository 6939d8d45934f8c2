import KernelIR.Preparation
import KernelIR.Proofs.Triple
import KernelIR.Proofs.WellFormed.Memory
import KernelIR.Proofs.WellFormed.Module
import Mathlib

/-!
# Preparation of well-formed modules

Up to the expansion of memory intrinsics a second invariant is needed: their calls have no results.
Inlining keeps it, as calls are copied with their targets and functions keep their names.
-/

namespace KernelIR

open ModuleM

namespace Module

/-- Calls to memory intrinsics have no results. -/
def DiscardsMemCalls (m : Module) : Prop :=
  ∀ f ∈ m.funcs.values, ∀ e ∈ f.calls, (m.memIntrinsic? e.2).isSome = true → e.2.dest = none

/-- The calls of `f` are calls of `m`, but for arguments; results may have gone. -/
def CallsOf (m : Module) (f : Func) : Prop :=
  ∀ c, f.HasCall c → ∃ g ∈ m.funcs.values, ∃ c₀, g.HasCall c₀ ∧
    c.callee.resolve? = c₀.callee.resolve? ∧ (c₀.dest = none → c.dest = none)

/-- What the invariant of the preparation says until the memory intrinsics are expanded. -/
structure Ready (m : Module) : Prop where
  wellFormed : m.WellFormed
  discards : m.DiscardsMemCalls

variable {m m' : Module} {id : FuncId} {f f' g : Func} {call : Call} {pos : Position}
  {kind : MemIntrinsic}

theorem callsOf_of_body_eq (hg : m.funcs.get? id = some g) (hbody : f.body = g.body) :
    m.CallsOf f := by
  intro c hc
  rw [Func.HasCall, hbody] at hc
  exact ⟨g, Arena.mem_values_iff.2 ⟨id, hg⟩, c, hc, rfl, fun h => h⟩

theorem memIntrinsic?_congr
    (hname : ∀ id, (m'.funcs.get? id).map (·.name) = (m.funcs.get? id).map (·.name)) {c c₀ : Call}
    (hres : c.callee.resolve? = c₀.callee.resolve?) : m'.memIntrinsic? c = m.memIntrinsic? c₀ := by
  rw [memIntrinsic?, memIntrinsic?, hres]
  cases c₀.callee.resolve? with
  | none => rfl
  | some id => rw [Option.bind_some, Option.bind_some, hname id]

theorem Updated.names (h : m.Updated id f' m') (hf : m.funcs.get? id = some f)
    (hname : f'.name = f.name) (id' : FuncId) :
    (m'.funcs.get? id').map (·.name) = (m.funcs.get? id').map (·.name) := by
  by_cases heq : id' = id
  · rw [heq, h.self, hf, Option.map_some, Option.map_some, hname]
  · rw [h.other id' heq]

theorem mem_memCalls_iff (hf : m.funcs.get? id = some f) : (pos, kind) ∈ m.memCalls id ↔
    ∃ call, f.callAt pos = .ok call ∧ m.memIntrinsic? call = some kind := by
  rw [memCalls, hf]
  simp only [List.mem_filterMap, Prod.exists, Option.map_eq_some_iff, Prod.mk.injEq,
    Func.mem_calls_iff]
  constructor
  · rintro ⟨p, c, hc, k, hk, rfl, rfl⟩
    exact ⟨c, hc, hk⟩
  · rintro ⟨c, hc, hk⟩
    exact ⟨pos, c, hc, kind, hk, rfl, rfl⟩

theorem mem_args_of_memCall? {c : MemCall} (h : m.memCall? f kind call = some c) :
    ∀ op ∈ [c.dst, c.source, c.len], op ∈ call.args := by
  rw [memCall?] at h
  split at h
  · next heq =>
      cases h
      simp [heq]
  · cases h

/-- Names stay, and no call comes up. -/
theorem DiscardsMemCalls.of_callsOf (h : m.DiscardsMemCalls)
    (hname : ∀ id, (m'.funcs.get? id).map (·.name) = (m.funcs.get? id).map (·.name))
    (hcalls : ∀ f ∈ m'.funcs.values, m.CallsOf f) : m'.DiscardsMemCalls := by
  intro f hf e he hmem
  obtain ⟨g, hg, c₀, hc₀, hres, hdest⟩ := hcalls f hf e.2 (Func.hasCall_iff.2 ⟨e.1, he⟩)
  obtain ⟨pos, hpos⟩ := Func.hasCall_iff.1 hc₀
  exact hdest (h g hg (pos, c₀) hpos (memIntrinsic?_congr hname hres ▸ hmem))

theorem Ready.updated (h : m.Ready) (hu : m.Updated id f m') (hg : m.funcs.get? id = some g)
    (hname : f.name = g.name) (hf : f.WellFormed m) (hcalls : m.CallsOf f) : m'.Ready := by
  refine ⟨h.wellFormed.updated hu hg (Or.inl hname.symm) hf,
    h.discards.of_callsOf (hu.names hg hname) fun f' hf' => ?_⟩
  obtain ⟨id', hf'⟩ := Arena.mem_values_iff.1 hf'
  rcases hu.get?_eq_some_iff.1 hf' with ⟨-, rfl⟩ | ⟨-, hf'⟩
  · exact hcalls
  · exact callsOf_of_body_eq hf' rfl

theorem Ready.handOver (h : m.Ready) (hf : m.funcs.get? id = some f) (wrapper : Func) :
    (m.handOver wrapper id).Ready :=
  h.updated (updated_modifyFunc hf _) hf rfl ((h.wellFormed.funcs id f hf).congr rfl rfl)
    (callsOf_of_body_eq hf rfl)

/-- Inlining copies the calls of the callee to the caller. -/
theorem callsOf_splice {caller callee : Func} {idCallee : FuncId} {call : Call} {pos : Position}
    {cont : Label} (hcaller : m.funcs.get? id = some caller)
    (hcallee : m.funcs.get? idCallee = some callee) (hwf : m.WellFormed)
    (hcall : caller.callAt pos = .ok call)
    (hs : Inline.splice caller call callee pos = .ok (cont, f)) : m.CallsOf f := by
  intro c hc
  obtain ⟨i, hi, ⟨c₀, hc₀, rfl⟩ | ⟨c₀, hc₀, rfl⟩⟩ := Inline.hasCall_splice hs hcall hc
  · obtain ⟨id', hid'⟩ := (hwf.funcs id caller hcaller).code.resolved c₀
      (Func.hasCall_iff_code.1 hc₀)
    obtain ⟨c₁, hc₁, -, hdest⟩ := Instr.exists_of_mapOperands_eq_call hi
    cases hc₁
    refine ⟨caller, Arena.mem_values_iff.2 ⟨id, hcaller⟩, c₀, hc₀, ?_, fun h => hdest.trans h⟩
    rw [hid', Inline.resolve?_of_mapOperands hi hid']
  · obtain ⟨id', hid'⟩ := (hwf.funcs idCallee callee hcallee).code.resolved c₀
      (Func.hasCall_iff_code.1 hc₀)
    obtain ⟨c₁, hc₁, -, hdest⟩ := Instr.exists_of_mapOperands_eq_call hi
    refine ⟨callee, Arena.mem_values_iff.2 ⟨idCallee, hcallee⟩, c₀, hc₀, ?_, fun h => ?_⟩
    · rw [hid', Inline.resolve?_of_copy hi hid']
    · cases hc₁
      rw [hdest]
      simp [h]

theorem Ready.inlineAt {site : CallSite} {cont : Label} (h : m.Ready)
    (hi : m.inlineAt site = .ok (cont, m')) : m'.Ready := by
  obtain ⟨caller, call, idCallee, callee, f, hx, hs, rfl⟩ := inlineAt_eq_ok hi
  have hbody := (Inline.splice_eq_ok hs hx.call_at).choose_spec.2.2.2.1
  refine h.updated (updated_setFunc hx.caller_live f) hx.caller_live (by rw [hbody]) ?_
    (callsOf_splice hx.caller_live hx.callee_live h.wellFormed hx.call_at hs)
  exact (h.wellFormed.funcs _ caller hx.caller_live).splice
    (h.wellFormed.funcs _ callee hx.callee_live) hx.defined hs hx.call_at

theorem Ready.expandMemCall (h : m.Ready) (hmem : (pos, kind) ∈ m.memCalls id)
    (he : m.expandMemCall ⟨id, pos⟩ kind = .ok m') : m'.Ready := by
  obtain ⟨f, call, c, f', hf, hcall, hc, hexpand, rfl⟩ := exists_expand_of_expandMemCall he
  obtain ⟨b, hb, -⟩ := Func.callAt_eq_ok_iff.1 hcall
  obtain ⟨-, -, hbody, -⟩ := MemCall.entries_expand hb hexpand
  have hf' := Arena.mem_values_iff.2 ⟨id, hf⟩
  have hdest : call.dest = none := by
    obtain ⟨call', hcall', hkind⟩ := (mem_memCalls_iff hf).1 hmem
    obtain rfl : call = call' := Except.ok.inj (hcall.symm.trans hcall')
    exact h.discards f hf' _ (Func.mem_calls_iff.2 hcall) (by rw [hkind]; rfl)
  refine h.updated (updated_setFunc hf f') hf (by rw [hbody]) (MemCall.wellFormed_expand
    (h.wellFormed.funcs id f hf) hcall hdest (mem_args_of_memCall? hc) hexpand) ?_
  intro c' hc'
  exact ⟨f, hf', c', MemCall.hasCall_expand hcall hexpand hc', rfl, fun h => h⟩

/-- Linkage does not matter. -/
theorem Ready.hideSymbols (h : m.Ready) : m.hideSymbols.2.Ready := by
  have hfuncs : ∀ id, m.hideSymbols.2.funcs.get? id = (m.funcs.get? id).map fun f =>
      if f.isHideable then { f with comdat := none, linkage := .privateSymbol } else f :=
    fun id => Arena.get?_map _ _ _
  have hbody : ∀ f : Func,
      (if f.isHideable then { f with comdat := none, linkage := .privateSymbol } else f).body =
        f.body := fun f => by split <;> rfl
  refine ⟨h.wellFormed.of_map _ _ hfuncs (fun _ => Arena.get?_map _ _ _) (fun _ f => ?_)
    (fun g => ?_) (fun g hg => ?_) (fun _ f hf => hf.congr (hbody f) ?_),
    h.discards.of_callsOf (fun id => ?_) fun f hf => ?_⟩
  · split <;> rfl
  · split <;> rfl
  · split <;> exact hg
  · split <;> rfl
  · rw [hfuncs]
    cases m.funcs.get? id with
    | none => rfl
    | some f =>
        rw [Option.map_some, Option.map_some]
        split <;> rfl
  · obtain ⟨id, hf⟩ := Arena.mem_values_iff.1 hf
    obtain ⟨g, hg, rfl⟩ := Option.map_eq_some_iff.1 (hfuncs id ▸ hf)
    exact callsOf_of_body_eq hg (hbody g)

end Module

theorem WrapperWalk.Moves.ready {w w' : WrapperWalk} {m m' : Module} (h : m.Ready)
    (hmove : Moves w m w' m') : m'.Ready := by
  cases hmove with
  | unwrap hpath hf hnext hactive hdone hg hinline => exact (h.handOver hf _).inlineAt hinline
  | _ => exact h

namespace ModuleM

theorem keeps_unwrapWrappers (mode : KernelMode) (steps : Nat) :
    Keeps Module.Ready (unwrapWrappers mode steps) := by
  refine Triple.keeps_get.bind fun _ m n m' hm hrun => ?_
  obtain ⟨w, hm', -⟩ :=
    WrapperWalk.run_eq_ok (P := fun _ => Module.Ready) (fun h hmove => hmove.ready h) hm hrun
  exact hm'

theorem keeps_expandMemCallsOf (id : FuncId) (bound : Nat) :
    Keeps Module.Ready (expandMemCallsOf expandMemCall id bound) := by
  induction bound with
  | zero => exact Triple.pure fun _ hm => hm
  | succ bound ih =>
      refine Triple.get_bind fun m hm => ?_
      cases hcalls : m.memCalls id with
      | nil => exact Triple.pure fun _ h => h ▸ hm
      | cons e es =>
          have hmem : e ∈ m.memCalls id := by
            rw [hcalls]
            exact List.mem_cons_self
          refine Triple.bind (R := fun _ => Module.Ready)
            (Triple.edit fun m₁ _ m' hm₁ he => ?_) fun _ =>
              ih.bind fun _ => Triple.pure fun _ h => h
          obtain ⟨m₂, hexpand, heq⟩ := map_eq_ok he
          cases heq
          subst hm₁
          exact hm.expandMemCall hmem hexpand

theorem keeps_expandMemCalls : Keeps Module.Ready expandMemCalls :=
  Triple.keeps_get.bind fun m => Triple.sumOver (I := fun _ => Module.Ready)
    (fun id _ => Triple.keeps_get.bind fun _ => keeps_expandMemCallsOf id _) m.funcs.ids

/-! From here on calls may have any results. -/

theorem keeps_setConv (id : FuncId) (conv : CallConv) :
    Keeps Module.WellFormed (setConv id conv) := by
  refine (Triple.keeps_func id).bind fun _ => Triple.change fun m hm => ?_
  have hconv := hm.modifyFunc (k := fun f => { f with conv }) id (fun _ => rfl) fun _ hf =>
    hf.congr rfl rfl
  exact hconv.mapFuncs (fun _ => rfl) fun _ hf => hf.setCallConv id conv

theorem keeps_requireUncalled {P : Module → Prop} (graph : CallGraph) (kernel : FuncId) :
    Keeps P (requireUncalled graph kernel) := by
  rw [requireUncalled]
  split
  · exact Triple.pure fun _ h => h
  · exact (Triple.keeps_func _).bind fun _ => (Triple.keeps_func _).bind fun _ => Triple.throw _

theorem keeps_markTopFunction (id : FuncId) : Keeps Module.WellFormed (markTopFunction id) :=
  Triple.change fun _ hm => hm.modifyFunc id (fun _ => rfl) fun _ hf => hf.congr rfl rfl

theorem keeps_useDeviceConventions : Keeps Module.WellFormed useDeviceConventions := by
  refine Triple.keeps_get.bind fun _ => Triple.keeps_get.bind fun m =>
    Triple.forM (I := fun _ => Module.WellFormed) (fun id _ => ?_) m.funcs.ids
  refine (Triple.keeps_func id).bind fun f => ?_
  split_ifs
  · exact keeps_requireUncalled _ id
  · exact (keeps_setConv id _).bind fun _ => Triple.pure fun _ h => h
  · exact Triple.pure fun _ h => h

theorem keeps_useSynthesisConventions (afterO3 : Bool) :
    Keeps Module.WellFormed (useSynthesisConventions afterO3) := by
  refine Triple.keeps_get.bind fun _ => Triple.keeps_get.bind fun m =>
    Triple.forM (I := fun _ => Module.WellFormed) (fun id _ => ?_) m.funcs.ids
  refine (Triple.keeps_func id).bind fun f => ?_
  split
  · split
    · exact (keeps_requireUncalled _ id).bind fun _ => keeps_markTopFunction id
    · exact (keeps_setConv id _).bind fun _ => Triple.pure fun _ h => h
  · exact Triple.pure fun _ h => h

theorem keeps_requestInlining : Keeps Module.WellFormed (change Module.requestInlining) :=
  Triple.change fun _ hm => hm.mapFuncs (fun f => by split <;> rfl) fun f hf =>
    hf.congr (by split <;> rfl) (by split <;> rfl)

theorem keeps_requestFlattening : Keeps Module.WellFormed (change Module.requestFlattening) :=
  Triple.change fun _ hm => hm.mapFuncs (fun f => by split <;> rfl) fun f hf =>
    hf.congr (by split <;> rfl) (by split <;> rfl)

theorem keeps_checkBuiltins {P : Module → Prop} (d : Demangler) : Keeps P (checkBuiltins d) := by
  refine Triple.edit fun m a m' hm h => ?_
  obtain ⟨_, -, heq⟩ := map_eq_ok h
  cases heq
  exact hm

end ModuleM

end KernelIR
