import KernelIR.Preparation
import KernelIR.Proofs.Conventions
import KernelIR.Proofs.Failing.Rounds
import KernelIR.Proofs.Failing.Weights
import KernelIR.Proofs.Inline.Exact
import KernelIR.Proofs.WellFormed.Casts
import KernelIR.Proofs.Wrapper.Walk
import Mathlib

/-!
# The preparation takes nothing back

Each pass of the preparation adds blocks or leaves less to do, for the convention that the flow
gives to functions.  The rounds of the preparation are those of its passes.
-/

namespace KernelIR

open ModuleM

section Blocks

variable {m : Module} {conv : CallConv}

theorem Inline.blockCount_splice {caller callee f : Func} {call : Call} {pos : Position}
    {cont : Label} (h : splice caller call callee pos = .ok (cont, f))
    (hcall : caller.callAt pos = .ok call) : caller.blockCount < f.blockCount := by
  obtain ⟨b, hb, hat, rfl, -, hp⟩ := splice_eq_ok h hcall
  have hkeys := (Spliced.keys_perm ⟨hb, hat, hp⟩).length_eq
  rw [List.length_append, List.length_cons] at hkeys
  rw [Func.blockCount, Func.blockCount]
  omega

theorem Func.length_cutBlocks (f : Func) (label : Label) (first second : List Instr)
    (t tail : Terminator) : (f.cutBlocks label first second t tail).length =
      (f.body.erase label).entries.length + 2 := by
  simp [cutBlocks]

theorem MemCall.blockCount_expand {c : MemCall} {f f' : Func} {pos : Position} {b : Block}
    (hb : f.body.find? pos.label = some b) (h : c.expand f pos = .ok f') :
    f.blockCount < f'.blockCount := by
  obtain ⟨opened, -, -, hp⟩ := entries_expand hb h
  have hnew := hp.length_eq
  have hold := (OrderedMap.entries_perm_of_find? hb).length_eq
  rw [List.length_append, Func.length_cutBlocks] at hnew
  rw [List.length_cons] at hold
  simp only [Func.blockCount, OrderedMap.keys, List.length_map]
  omega

theorem Module.unprepared_handOver (wrapper : Func) (id : FuncId) :
    (m.handOver wrapper id).unprepared conv = m.unprepared conv := by
  have htotal : ∀ w : Func → Nat, (∀ f, w (f.annotate wrapper.annotations) = w f) →
      (m.handOver wrapper id).funcs.total w = m.funcs.total w := fun w => Arena.total_modify
  rw [unprepared, htotal Func.blockCount fun _ => rfl, htotal (Func.unprepared conv) fun _ => rfl]
  rfl

namespace ModuleM

theorem lowers_unwrapCall (site : CallSite) (wrapper : FuncId) :
    Lowers (Module.unprepared conv) m (WrapperWalk.unwrapCall site wrapper) := by
  rintro m₀ rfl
  cases hg : m₀.funcs.get? wrapper with
  | none =>
      rw [WrapperWalk.unwrapCall, apply_bind, apply_func, hg]
  | some g =>
      rw [WrapperWalk.unwrapCall_apply hg]
      cases hi : (m₀.handOver g site.caller).inlineAt site with
      | error e => exact (Module.unprepared_handOver g site.caller).le
      | ok r =>
          obtain ⟨caller, call, id, callee, f, hx, hs, hr⟩ := Module.inlineAt_eq_ok hi
          refine Or.inr ?_
          rw [hr, ← Module.unprepared_handOver (m := m₀) g site.caller]
          exact (Module.updated_setFunc hx.caller_live f).unprepared_lt_of_blocks hx.caller_live
            (Inline.blockCount_splice hs hx.call_at)

theorem lowers_step (w : WrapperWalk) : Lowers (Module.unprepared conv) m w.step := by
  rw [WrapperWalk.step]
  split
  · exact Lowers.pure _
  · split_ifs
    · exact Lowers.pure _
    · exact Lowers.pure _
  · refine Lowers.func_bind fun f _ => Lowers.get_bind ?_
    split
    · exact Lowers.pure _
    · exact Lowers.pure _
    · split_ifs
      · exact Lowers.func_bind fun g _ => Lowers.throw _
      · exact (lowers_unwrapCall _ _).bind fun _ _ _ => Lowers.pure _
      · exact Lowers.pure _

end ModuleM

namespace WrapperWalk

/-- The steps that the walk takes as long as they change nothing. -/
def rounds (m : Module) : Nat → WrapperWalk → List (ModuleM Unit)
  | 0, _ => [throw .outOfSteps]
  | steps + 1, w =>
    effect w.step :: (w.step.apply m).1.toOption.join.elim [] fun next => rounds m steps next

theorem follows_run (steps : Nat) (w : WrapperWalk) :
    Follows (Module.unprepared conv) m (run steps w) (rounds m steps w) := by
  induction steps generalizing w m with
  | zero => exact Follows.single (Lowers.throw _)
  | succ steps ih =>
      refine (Follows.single (lowers_step w)).bind_idle (fun next m => ?_) fun next h => ?_
      · cases next with
        | none => exact Lowers.pure _
        | some next => exact (ih next).lowers
      · rw [h]
        cases next with
        | none => exact Follows.pure _
        | some next => exact ih next

end WrapperWalk

namespace ModuleM

def wrapperRounds (mode : KernelMode) (steps : Nat) (m : Module) : List (ModuleM Unit) :=
  WrapperWalk.rounds m steps { pending := m.withRole mode .kernel }

theorem follows_unwrapWrappers (mode : KernelMode) (steps : Nat) :
    Follows (Module.unprepared conv) m (unwrapWrappers mode steps) (wrapperRounds mode steps m) :=
  Follows.get_bind (WrapperWalk.follows_run steps _)

theorem unprepared_expandMemCall {m' : Module} {site : CallSite} {kind : MemIntrinsic}
    (h : m.expandMemCall site kind = .ok m') : m'.unprepared conv < m.unprepared conv := by
  obtain ⟨f, call, c, f', hf, hcall, -, hexpand, rfl⟩ := Module.exists_expand_of_expandMemCall h
  obtain ⟨b, hb, -⟩ := Func.callAt_eq_ok_iff.1 hcall
  exact (Module.updated_setFunc hf f').unprepared_lt_of_blocks hf
    (MemCall.blockCount_expand hb hexpand)

/-- Expands a call to a memory intrinsic that stands in the function `id`. -/
def expandRound (id : FuncId) (e : Position × MemIntrinsic) : ModuleM Unit :=
  expandMemCall ⟨id, e.1⟩ e.2

theorem lowers_expandRound (id : FuncId) (e : Position × MemIntrinsic) :
    Lowers (Module.unprepared conv) m (expandRound id e) := by
  refine Lowers.edit fun _ m' h => Or.inr ?_
  obtain ⟨m₁, h, heq⟩ := map_eq_ok h
  cases heq
  exact unprepared_expandMemCall h

theorem lowers_expandMemCallsOf (id : FuncId) (bound : Nat) :
    Lowers (Module.unprepared conv) m (expandMemCallsOf expandMemCall id bound) := by
  induction bound generalizing m with
  | zero => exact Lowers.pure _
  | succ bound ih =>
      refine Lowers.get_bind ?_
      split
      · exact Lowers.pure _
      · next pos kind _ _ =>
          exact (lowers_expandRound id (pos, kind)).bind fun _ _ _ =>
            ih.bind fun _ _ _ => Lowers.pure _

/-- A call that is expanded changes the module, so that the first one of a function decides. -/
theorem follows_expandMemCallsOf (id : FuncId) :
    Follows (Module.unprepared conv) m
      (do expandMemCallsOf expandMemCall id ((← get).memCalls id).length)
      ((m.memCalls id).map (expandRound id)) := by
  refine Follows.get_bind ?_
  cases hcalls : m.memCalls id with
  | nil => exact Follows.pure _
  | cons e rest =>
      refine Follows.get_bind ?_
      rw [hcalls]
      refine (Follows.round (lowers_expandRound id e)).bind_idle
        (fun _ m => (lowers_expandMemCallsOf id _).bind fun _ _ _ => Lowers.pure _) fun _ h => ?_
      rw [expandRound, expandMemCall, apply_edit] at h
      cases hexpand : m.expandMemCall ⟨id, e.1⟩ e.2 with
      | error e =>
          rw [hexpand] at h
          cases h
      | ok m' =>
          rw [hexpand] at h
          cases h
          have hlt : m.unprepared conv < m.unprepared conv := unprepared_expandMemCall hexpand
          exact absurd hlt (lt_irrefl _)

def memoryRounds (m : Module) : List (ModuleM Unit) :=
  m.funcs.ids.flatMap fun id => (m.memCalls id).map (expandRound id)

theorem follows_expandMemCalls :
    Follows (Module.unprepared conv) m expandMemCalls (memoryRounds m) :=
  Follows.get_bind (Follows.sumOver
    (r := fun m id => (m.memCalls id).map (expandRound id))
      (fun id _ => follows_expandMemCallsOf id) _)

end ModuleM

end Blocks

section Weights

variable {m : Module} {conv : CallConv}

theorem Module.hideSymbols_eq_self_or_lt (m : Module) :
    m.hideSymbols.2 = m ∨ m.hideSymbols.2.unprepared conv < m.unprepared conv := by
  have hfuncs : m.mapFuncs Func.hide = m ∨
      (m.mapFuncs Func.hide).unprepared conv < m.unprepared conv := by
    refine mapFuncs_eq_self_or_unprepared_lt (fun f => ?_) (Func.hide_eq_self_or_lt conv)
    rw [Func.hide]
    split_ifs <;> rfl
  exact eq_or_lt_trans hfuncs
    (mapGlobals_eq_self_or_unprepared_lt (m := m.mapFuncs Func.hide) Global.hide_eq_self_or_lt)

namespace ModuleM

theorem lowers_dropCallCast {site : CallSite} {callee : FuncId}
    (hfind : m.findDroppableCast? = some (site, callee)) :
    Lowers (Module.unprepared conv) m (dropCallCast site callee) := by
  refine Lowers.func_bind fun target _ => Lowers.func_bind fun caller hcaller => ?_
  obtain ⟨f, call, hf, hcall, hcast, -⟩ := Module.findDroppableCast?_eq_some hfind
  obtain rfl : f = caller := Option.some.inj (hf.symm.trans hcaller)
  rw [hcall]
  refine Lowers.get_bind ?_
  rw [word_some_bind]
  refine Lowers.set (Or.inr ?_)
  obtain ⟨b, hb, hi⟩ := Func.callAt_eq_ok_iff.1 hcall
  set typed := (call.args.map fun op => (op, m.valueTy? f op)).zip (target.params.map (·.ty))
  set casts := (adaptArgs f.nextReg typed).1
  set passed := (adaptArgs f.nextReg typed).2
  set direct : Call := ⟨none, target.retTy, .direct callee, passed, call.conv⟩
  refine (Module.updated_setFunc hf _).unprepared_lt hf
    (by simp [Func.blockCount, Func.replaceInstr]) (Func.unprepared_lt_of_load rfl ?_)
  -- a cast for each argument at most, in the place of the one that is dropped
  have hload := Func.load_replaceInstr (Instr.unprepared_bare conv) (casts ++ [.call direct]) hb hi
  have hone : (casts.map (Instr.unprepared conv)).sum = casts.length := by
    rw [List.map_congr_left (g := fun _ => 1) fun i hi => ?_]
    · simp
    · obtain ⟨c, rfl, -⟩ := (adapts_adaptArgs f.nextReg typed).reads i hi
      rfl
  have hlength : casts.length ≤ call.args.length :=
    (length_adaptArgs f.nextReg typed).trans_le (List.countP_le_length.trans (by simp [typed]))
  have hdirect : (Instr.call direct).unprepared conv = if call.conv = conv then 1 else 2 := rfl
  have hold : (Instr.call call).unprepared conv =
      (if call.conv = conv then 1 else 2) + (call.args.length + 1) := by
    rw [Instr.unprepared, hcast]
    rfl
  rw [List.map_append, List.sum_append, hone, List.map_singleton, List.sum_singleton, hdirect,
    hold] at hload
  omega

theorem lowers_dropCallCastsUpTo (bound : Nat) :
    Lowers (Module.unprepared conv) m (dropCallCastsUpTo dropCallCast bound) := by
  induction bound generalizing m with
  | zero => exact Lowers.pure _
  | succ bound ih =>
      refine Lowers.get_bind ?_
      split
      · exact Lowers.pure _
      · next hfind =>
          exact (lowers_dropCallCast hfind).bind fun _ _ _ => ih.bind fun _ _ _ => Lowers.pure _

theorem lowers_dropCallCasts : Lowers (Module.unprepared conv) m dropCallCasts :=
  Lowers.get_bind (lowers_dropCallCastsUpTo _)

theorem lowers_setConv (id : FuncId) : Lowers (Module.unprepared conv) m (setConv id conv) := by
  refine Lowers.func_bind fun _ _ => Lowers.change ?_
  have hheader : (m.modifyFunc id fun f => { f with conv }) = m ∨
      (m.modifyFunc id fun f => { f with conv }).unprepared conv < m.unprepared conv :=
    Module.modifyFunc_eq_self_or_unprepared_lt id (fun _ => rfl) fun f _ =>
      f.setConv_eq_self_or_lt conv
  exact eq_or_lt_trans hheader (Module.mapFuncs_eq_self_or_unprepared_lt
    (fun f => f.blockCount_mapBlocks _) (Func.setCallConv_eq_self_or_lt conv id))

end ModuleM

/-- A treatment of `f` that sets no convention but `conv`, and marks none but kernels. -/
def Treatment.Suits (conv : CallConv) (f : Func) : Treatment → Prop
  | skip | keep => True
  | mark => f.conv = .spirKernel
  | assign conv' => conv' = conv

theorem Treatment.device_suits (f : Func) : (device f).Suits .spirFunc f := by
  rw [device]
  split_ifs <;> simp [Suits]

theorem Treatment.synthesis_suits (afterO3 : Bool) (f : Func) :
    (synthesis afterO3 f).Suits (if afterO3 then .c else .spirFunc) f := by
  rw [synthesis]
  split_ifs <;> simp_all [Suits]

namespace ModuleM

theorem lowers_requireUncalled (graph : CallGraph) (id : FuncId) :
    Lowers (Module.unprepared conv) m (requireUncalled graph id) := by
  rw [requireUncalled]
  split
  · exact Lowers.pure _
  · exact Lowers.func_bind fun _ _ => Lowers.func_bind fun _ _ => Lowers.throw _

theorem lowers_treat (graph : CallGraph) {id : FuncId} {f : Func} {t : Treatment}
    (hconv : conv ≠ .spirKernel) (hf : m.funcs.get? id = some f) (ht : t.Suits conv f) :
    Lowers (Module.unprepared conv) m (treat graph id t) := by
  cases t with
  | skip => exact Lowers.pure _
  | keep => exact lowers_requireUncalled graph id
  | mark =>
      refine (lowers_requireUncalled graph id).bind fun _ m' h => ?_
      rw [requireUncalled, requireUncalled_eq_ok h] at h
      cases h
      have hkernel : f.conv = .spirKernel := ht
      refine Lowers.change (Or.inr ((Module.updated_modifyFunc hf _).unprepared_lt hf rfl ?_))
      have hlt : conv.unprepared .c < conv.unprepared f.conv := by
        rw [hkernel, CallConv.unprepared, CallConv.unprepared, if_neg hconv.symm, if_pos rfl]
        split_ifs <;> simp_all
      exact Nat.add_lt_add_right (Nat.add_lt_add_left hlt _) _
  | assign conv' =>
      obtain rfl : conv' = conv := ht
      exact (lowers_setConv id).bind fun _ _ _ => Lowers.pure _

def conventionRounds (plan : Func → Treatment) (m : Module) : List (ModuleM Unit) :=
  m.funcs.ids.map fun id => do treat (CallGraph.ofModule m) id (plan (← func id))

theorem follows_treatAll {plan : Func → Treatment} (hconv : conv ≠ .spirKernel)
    (hplan : ∀ f, (plan f).Suits conv f) :
    Follows (Module.unprepared conv) m (treatAll plan) (conventionRounds plan m) :=
  Follows.get_bind (Follows.get_bind (Follows.forM_round
    (fun _ _ => Lowers.func_bind fun f hf => lowers_treat _ hconv hf (hplan f)) _))

theorem lowers_foldCall (value : Operand) (site : CallSite) :
    Lowers (Module.unprepared conv) m (foldCall value site) := by
  refine Lowers.func_bind fun caller hcaller => ?_
  split
  · exact Lowers.throw _
  · next i f hremove =>
      have hset : ∀ g : Func, g = { f with body := g.body } → g.blockCount = f.blockCount →
          g.load (Instr.unprepared conv) = f.load (Instr.unprepared conv) →
            (m.setFunc site.caller g).unprepared conv < m.unprepared conv := by
        intro g hbody hblocks hload
        refine (Module.updated_setFunc hcaller g).unprepared_lt hcaller
          (hblocks.trans (Func.blockCount_removeInstr hremove)) (Func.unprepared_lt_of_load ?_ ?_)
        · rw [hbody, Func.removeInstr_eq_body hremove]
        · rw [hload, Func.load_removeInstr (Instr.unprepared_bare conv) hremove]
          exact Nat.lt_add_of_pos_left (Instr.unprepared_pos conv i)
      refine Lowers.change (Or.inr ?_)
      dsimp only
      split
      · exact hset _ rfl (Func.blockCount_mapBlocks _ _)
          (Func.load_mapOperands _ _ (Instr.unprepared_mapOperands conv _))
      · exact hset f rfl rfl rfl

theorem lowers_checkBuiltins (d : Demangler) :
    Lowers (Module.unprepared conv) m (checkBuiltins d) := by
  refine Lowers.edit fun _ m' h => Or.inl ?_
  obtain ⟨_, -, heq⟩ := map_eq_ok h
  cases heq
  rfl

/-- The calls of the builtin with the handle `id` are folded, and then it is erased. -/
def foldRounds (m : Module) (id : FuncId) (builtin : Func) : List (ModuleM Unit) :=
  (m.callSites id).reverse.map (foldCall (oneOf builtin.retTy)) ++
    [edit fun m => (IRError.lift (m.eraseFunc id)).map fun e => ((), e.2)]

def globalIdRounds (m : Module) : List (ModuleM Unit) :=
  match m.findFunc? globalIdName with
  | none => []
  | some id =>
    match m.funcs.get? id with
    | none => []
    | some builtin => if builtin.isDeclaration then foldRounds m id builtin else []

theorem failsBy_foldGlobalId :
    FailsBy (Module.unprepared conv) m foldGlobalId (globalIdRounds m) := by
  refine FailsBy.get_bind ?_
  rw [globalIdRounds]
  cases hfind : m.findFunc? globalIdName with
  | none => exact FailsBy.pure _
  | some id =>
      obtain ⟨builtin, hbuiltin, -⟩ := Module.findFunc?_eq_some hfind
      dsimp only
      rw [hbuiltin]
      refine FailsBy.func_bind hbuiltin ?_
      dsimp only
      cases hdecl : builtin.isDeclaration with
      | false => exact FailsBy.pure _
      | true =>
          exact FailsBy.get_bind (FailsBy.bind
            (Follows.forM_round (fun site _ => lowers_foldCall _ site) _) (l := fun _ => [_])
              fun _ _ => FailsBy.bind_of_ok (FailsBy.edit _) fun _ _ => rfl)

end ModuleM

end Weights

/-- The convention that the flow gives to functions other than kernels and intrinsics. -/
def Flow.convention (afterO3 : Bool) : Flow → CallConv
  | .spir => .spirFunc
  | .hls => if afterO3 then .c else .spirFunc

theorem Flow.convention_ne (afterO3 : Bool) (flow : Flow) :
    flow.convention afterO3 ≠ .spirKernel := by
  cases flow <;> cases afterO3 <;> decide

namespace ModuleM

variable {m : Module}

def flowRounds (flow : Flow) (afterO3 : Bool) (d : Demangler) (m : Module) :
    List (ModuleM Unit) :=
  match flow with
  | .spir => conventionRounds .device m
  | .hls => conventionRounds (.synthesis afterO3) m ++ ([checkBuiltins d] ++
      if afterO3 then globalIdRounds m else [])

theorem failsBy_prepareFlow (flow : Flow) (afterO3 : Bool) (d : Demangler) :
    FailsBy (Module.unprepared (flow.convention afterO3)) m (prepareFlow flow afterO3 d)
      (flowRounds flow afterO3 d m) := by
  have hconv := flow.convention_ne afterO3
  cases flow with
  | spir =>
      refine FailsBy.bind_of_ok ?_ fun _ _ => rfl
      rw [useDeviceConventions_eq]
      exact (follows_treatAll hconv Treatment.device_suits).failsBy
  | hls =>
      have hset : Follows (Module.unprepared (Flow.hls.convention afterO3)) m
          (useSynthesisConventions afterO3) (conventionRounds (.synthesis afterO3) m) := by
        rw [useSynthesisConventions_eq]
        exact follows_treatAll hconv (Treatment.synthesis_suits afterO3)
      refine FailsBy.bind hset (l := fun m => [checkBuiltins d] ++
        if afterO3 then globalIdRounds m else []) fun _ m => ?_
      refine FailsBy.bind (Follows.round (lowers_checkBuiltins d))
        (l := fun m => if afterO3 then globalIdRounds m else []) fun _ m => ?_
      dsimp only
      split_ifs
      · exact FailsBy.bind_of_ok failsBy_foldGlobalId fun _ _ => rfl
      · exact FailsBy.bind_of_ok (FailsBy.pure _) fun _ _ => rfl

/-- What the preparation goes through. -/
def preparationRounds (flow : Flow) (afterO3 : Bool) (d : Demangler) (steps : Nat) (m : Module) :
    List (ModuleM Unit) :=
  wrapperRounds flow.kernelMode steps m ++ ([effect (change Module.hideSymbols)] ++
    (memoryRounds m ++ ([effect dropCallCasts] ++ flowRounds flow afterO3 d m)))

theorem failsBy_prepare (flow : Flow) (afterO3 : Bool) (d : Demangler) (steps : Nat) :
    FailsBy (Module.unprepared (flow.convention afterO3)) m (prepare flow afterO3 d steps)
      (preparationRounds flow afterO3 d steps m) :=
  FailsBy.bind (follows_unwrapWrappers _ steps) fun _ _ =>
    FailsBy.bind (Follows.single (Lowers.change (Module.hideSymbols_eq_self_or_lt _))) fun _ _ =>
      FailsBy.bind follows_expandMemCalls fun _ _ =>
        FailsBy.bind (Follows.single lowers_dropCallCasts) fun _ _ =>
          FailsBy.bind_of_ok (failsBy_prepareFlow flow afterO3 d) fun _ _ => rfl

end ModuleM

end KernelIR
