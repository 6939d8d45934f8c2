import KernelIR.Convention
import KernelIR.Proofs.Callers
import KernelIR.Proofs.References
import KernelIR.Proofs.Stages
import Mathlib

/-!
# Conventions after a pass

Each pass over the functions treats one at a time, and what it does to calls adds up to one choice
of conventions by function.  So after a pass a call has the convention of its callee, unless the
callee was passed over or is not known.  Kernels are not called: the graph that is built before the
pass has the callers that the scan for call sites finds.
-/

namespace KernelIR

section AssignConvs

variable (σ : FuncId → Option CallConv)

/-- A call takes the convention chosen for the function that it resolves to, if there is one. -/
def Call.assignConv (c : Call) : Call :=
  { c with conv := (c.callee.resolve?.bind σ).getD c.conv }

def Instr.assignConvs : Instr → Instr
  | .call c => .call (c.assignConv σ)
  | i => i

def Block.assignConvs (b : Block) : Block := { b with instrs := b.instrs.map (Instr.assignConvs σ) }

def Func.assignConvs (f : Func) : Func := f.mapBlocks (Block.assignConvs σ)

end AssignConvs

theorem Call.assignConv_none (c : Call) : c.assignConv (fun _ => none) = c := by
  cases h : c.callee.resolve? <;> simp [assignConv, h]

theorem Instr.call?_assignConvs (σ : FuncId → Option CallConv) (i : Instr) :
    (i.assignConvs σ).call? = i.call?.map (Call.assignConv σ) := by
  cases i <;> rfl

theorem Instr.assignConvs_none (i : Instr) : i.assignConvs (fun _ => none) = i := by
  cases i with
  | call c => exact congrArg call c.assignConv_none
  | _ => rfl

/-- The convention of one more function is chosen. -/
theorem Instr.setCallConv_assignConvs (σ : FuncId → Option CallConv) (id : FuncId)
    (conv : CallConv) (i : Instr) :
    (i.assignConvs σ).setCallConv id conv = i.assignConvs (Function.update σ id (some conv)) := by
  cases i with
  | call c =>
      by_cases h : c.callee.resolve? = some id
      · simp [assignConvs, Call.assignConv, setCallConv, h]
      · have hother : c.callee.resolve?.bind (Function.update σ id (some conv)) =
            c.callee.resolve?.bind σ := by
          cases hr : c.callee.resolve? with
          | none => rfl
          | some id' =>
              have hne : id' ≠ id := fun heq => h (heq ▸ hr)
              simp [Function.update_of_ne hne]
        simp [assignConvs, Call.assignConv, setCallConv, h, hother]
  | _ => rfl

namespace Func

variable (σ : FuncId → Option CallConv) (f : Func)

theorem assignConvs_none : f.assignConvs (fun _ => none) = f := by
  have hblock : ∀ b : Block, b.assignConvs (fun _ => none) = b := by
    intro b
    have hmap : b.instrs.map (Instr.assignConvs fun _ => none) = b.instrs :=
      (List.map_congr_left fun i _ => i.assignConvs_none).trans (List.map_id _)
    rw [Block.assignConvs, hmap]
  have hentries : f.body.entries.map (fun e => (e.1, e.2.assignConvs fun _ => none)) =
      f.body.entries :=
    (List.map_congr_left fun e _ => congrArg (e.1, ·) (hblock e.2)).trans (List.map_id _)
  have hbody : f.body.map (Block.assignConvs fun _ => none) = f.body := OrderedMap.ext hentries
  rw [assignConvs, mapBlocks, hbody]

theorem setCallConv_assignConvs (id : FuncId) (conv : CallConv) :
    (f.assignConvs σ).mapBlocks (Block.setCallConv id conv) =
      f.assignConvs (Function.update σ id (some conv)) := by
  have hblock : ∀ b : Block, (b.assignConvs σ).setCallConv id conv =
      b.assignConvs (Function.update σ id (some conv)) := by
    intro b
    simp only [Block.assignConvs, Block.setCallConv, List.map_map, Block.mk.injEq, and_true]
    exact List.map_congr_left fun i _ => i.setCallConv_assignConvs σ id conv
  have hbody : (f.body.map (Block.assignConvs σ)).map (Block.setCallConv id conv) =
      f.body.map (Block.assignConvs (Function.update σ id (some conv))) := by
    apply OrderedMap.ext
    simp only [OrderedMap.map, OrderedMap.entries_mapWithKey, List.map_map]
    exact List.map_congr_left fun e _ => congrArg (e.1, ·) (hblock e.2)
  rw [assignConvs, mapBlocks, mapBlocks, assignConvs, mapBlocks, hbody]

/-- Sets the convention of the calls to a function, if there is one to set. -/
def setCalls (id : FuncId) : Option CallConv → Func → Func
  | none, f => f
  | some conv, f => f.mapBlocks (Block.setCallConv id conv)

theorem setCalls_assignConvs {σ : FuncId → Option CallConv} {id : FuncId} (hid : σ id = none)
    (conv? : Option CallConv) :
    (f.assignConvs σ).setCalls id conv? = f.assignConvs (Function.update σ id conv?) := by
  cases conv? with
  | none => rw [setCalls, ← hid, Function.update_eq_self]
  | some conv => exact f.setCallConv_assignConvs σ id conv

theorem calls_assignConvs :
    (f.assignConvs σ).calls = f.calls.map fun e => (e.1, e.2.assignConv σ) :=
  f.calls_mapBlocks (fun _ => rfl) (Instr.call?_assignConvs σ)

theorem isDeclaration_assignConvs : (f.assignConvs σ).isDeclaration = f.isDeclaration := by
  simp [isDeclaration, assignConvs, mapBlocks, OrderedMap.isEmpty, OrderedMap.map]

end Func

/-- What a pass does about one function: nothing, nothing but to check that it is not called, to
mark it as a top-level function after that check, or to set its convention. -/
inductive Treatment where
  | skip
  | keep
  | mark
  | assign (conv : CallConv)

namespace Treatment

def header : Treatment → Func → Func
  | skip | keep => id
  | mark => fun f => { f with conv := .c, attributes := f.attributes.insert topFunctionKey "" }
  | assign conv => fun f => { f with conv }

/-- The convention that the calls are to have. -/
def conv? : Treatment → Option CallConv
  | assign conv => some conv
  | _ => none

/-- Kernels are entered from outside and are not called. -/
def isKernel : Treatment → Bool
  | keep | mark => true
  | _ => false

def device (f : Func) : Treatment :=
  if f.isKernel .callingConvention then keep else if f.isIntrinsic then skip else assign .spirFunc

def synthesis (afterO3 : Bool) (f : Func) : Treatment :=
  if f.attributes.contains topFunctionKey || f.isIntrinsic then skip
  else if f.conv = .spirKernel then mark
  else assign (if afterO3 then .c else .spirFunc)

def uniform (conv : CallConv) (f : Func) : Treatment :=
  if f.isIntrinsic then skip else assign conv

/-! No plan looks at the conventions of calls. -/

theorem device_assignConvs (σ : FuncId → Option CallConv) (f : Func) :
    device (f.assignConvs σ) = device f := rfl

theorem synthesis_assignConvs (afterO3 : Bool) (σ : FuncId → Option CallConv) (f : Func) :
    synthesis afterO3 (f.assignConvs σ) = synthesis afterO3 f := rfl

theorem uniform_assignConvs (conv : CallConv) (σ : FuncId → Option CallConv) (f : Func) :
    uniform conv (f.assignConvs σ) = uniform conv f := rfl

theorem header_assignConvs (t : Treatment) (σ : FuncId → Option CallConv) (f : Func) :
    t.header (f.assignConvs σ) = (t.header f).assignConvs σ := by
  cases t <;> rfl

end Treatment

namespace ModuleM

open Treatment

def treat (graph : CallGraph) (id : FuncId) : Treatment → ModuleM Unit
  | skip => pure ()
  | keep => requireUncalled graph id
  | mark => do
    requireUncalled graph id
    markTopFunction id
  | assign conv => do
    let _ ← setConv id conv

/-- The functions of the module are treated one after the other. -/
def treatAll (plan : Func → Treatment) : ModuleM Unit := do
  let graph := CallGraph.ofModule (← get)
  (← get).funcs.ids.forM fun id => do
    treat graph id (plan (← func id))

theorem treatAll_apply (plan : Func → Treatment) (m : Module) : (treatAll plan).apply m =
    (m.funcs.ids.forM fun id => do
      treat (CallGraph.ofModule m) id (plan (← func id))).apply m := by
  rw [treatAll, apply_bind, apply_get]
  dsimp only
  rw [apply_bind, apply_get]

theorem useDeviceConventions_eq : useDeviceConventions = treatAll device := by
  refine bind_congr fun m => bind_congr fun m' => congrArg (List.forM _) (funext fun id =>
    bind_congr fun f => ?_)
  rw [device]
  split_ifs <;> simp_all [treat]

theorem useSynthesisConventions_eq (afterO3 : Bool) :
    useSynthesisConventions afterO3 = treatAll (synthesis afterO3) := by
  refine bind_congr fun m => bind_congr fun m' => congrArg (List.forM _) (funext fun id =>
    bind_congr fun f => ?_)
  rw [synthesis]
  split_ifs <;> simp_all [treat]

end ModuleM

/-- What a treatment makes of the module. -/
def Module.treat (m : Module) (id : FuncId) : Treatment → Module
  | .skip | .keep => m
  | .mark => m.modifyFunc id Treatment.mark.header
  | .assign conv => (m.setConv id conv).2

namespace ModuleM

variable {graph : CallGraph} {id : FuncId} {m m' : Module} {t : Treatment}

theorem requireUncalled_eq_ok (h : (requireUncalled graph id).apply m = (.ok ⟨⟩, m')) :
    graph.callers id = [] := by
  rw [requireUncalled] at h
  split at h
  · assumption
  · obtain ⟨_, _, -, h⟩ := bind_eq_ok h
    obtain ⟨_, _, -, h⟩ := bind_eq_ok h
    cases h

theorem treat_apply (hid : m.funcs.contains id = true)
    (ht : t.isKernel = true → graph.callers id = []) :
    (treat graph id t).apply m = (.ok ⟨⟩, m.treat id t) := by
  obtain ⟨f, hf⟩ := Arena.contains_iff.1 hid
  cases t with
  | skip => rfl
  | keep =>
      rw [treat, requireUncalled, ht rfl]
      rfl
  | mark =>
      rw [treat, requireUncalled, ht rfl]
      rfl
  | assign conv =>
      rw [treat, setConv, apply_bind, apply_bind, apply_func, hf]
      rfl

theorem callers_of_treat (h : (treat graph id t).apply m = (.ok ⟨⟩, m'))
    (ht : t.isKernel = true) : graph.callers id = [] := by
  cases t with
  | skip => cases ht
  | keep => exact requireUncalled_eq_ok h
  | mark =>
      obtain ⟨_, m₁, h, -⟩ := bind_eq_ok h
      exact requireUncalled_eq_ok h
  | assign conv => cases ht

end ModuleM

namespace Module

variable (plan : Func → Treatment) (m : Module)

/-- The conventions chosen once all functions but the last ones are treated. -/
def chosen (rest : List FuncId) (id : FuncId) : Option CallConv :=
  if rest.contains id then none else (m.funcs.get? id).bind fun f => (plan f).conv?

/-- What has become of the module once all functions but the last ones are treated. -/
structure Underway (rest : List FuncId) (m₁ : Module) : Prop where
  nodup : rest.Nodup
  live : ∀ id ∈ rest, m.funcs.contains id = true
  funcs : ∀ id, m₁.funcs.get? id = (m.funcs.get? id).map fun f =>
    (if id ∈ rest then f else (plan f).header f).assignConvs (m.chosen plan rest)
  globals : m₁.globals = m.globals
  triple : m₁.triple = m.triple

variable {plan m} {rest : List FuncId} {id : FuncId} {m₁ : Module} {f : Func}

theorem get?_treat (m : Module) (t : Treatment) (id id' : FuncId) :
    (m.treat id t).funcs.get? id' = (m.funcs.get? id').map fun g =>
      (if id' = id then t.header g else g).setCalls id t.conv? := by
  have hmodify : ∀ header : Func → Func, (m.modifyFunc id header).funcs.get? id' =
      (m.funcs.get? id').map fun g => if id' = id then header g else g := by
    intro header
    by_cases heq : id' = id
    · subst heq
      simp [modifyFunc]
    · simp [modifyFunc, Arena.get?_modify_of_ne _ heq, heq]
  cases t with
  | skip | keep => simp [treat, Treatment.header, Treatment.conv?, Func.setCalls]
  | mark => exact hmodify _
  | assign conv =>
      rw [treat, setConv, mapFuncs, Arena.get?_map, hmodify, Option.map_map]
      rfl

theorem underway : m.Underway plan m.funcs.ids m := by
  have hchosen : ∀ id f, m.funcs.get? id = some f → id ∈ m.funcs.ids := by
    intro id f hf
    rw [Arena.mem_ids_iff, hf]
    rfl
  refine ⟨m.funcs.nodup_ids, fun id hid => Arena.mem_ids_iff.1 hid, fun id => ?_, rfl, rfl⟩
  have hnone : m.chosen plan m.funcs.ids = fun _ => none := by
    funext id
    rw [chosen]
    split_ifs with hid
    · rfl
    · rw [List.contains_iff_mem, Arena.mem_ids_iff] at hid
      simp [Option.not_isSome_iff_eq_none.1 hid]
  rw [hnone]
  cases hf : m.funcs.get? id with
  | none => rfl
  | some f => simp [hchosen id f hf, Func.assignConvs_none]

theorem chosen_eq_update (hid : id ∉ rest) (hf : m.funcs.get? id = some f) :
    m.chosen plan rest =
      Function.update (m.chosen plan (id :: rest)) id (plan f).conv? := by
  funext id'
  by_cases heq : id' = id
  · subst heq
    simp [chosen, hid, hf]
  · simp [chosen, heq]

theorem Underway.treat (h : m.Underway plan (id :: rest) m₁) (hf : m.funcs.get? id = some f) :
    m.Underway plan rest (m₁.treat id (plan f)) := by
  obtain ⟨hid, hrest⟩ := List.nodup_cons.1 h.nodup
  refine ⟨hrest, fun id' hid' => h.live id' (List.mem_cons_of_mem _ hid'), fun id' => ?_, ?_, ?_⟩
  · rw [get?_treat, h.funcs, Option.map_map]
    apply Option.map_congr
    intro f' hf'
    -- The calls of `id` have the conventions that they began with until now.
    have hnone : m.chosen plan (id :: rest) id = none := by simp [chosen]
    rw [chosen_eq_update hid hf, ← Func.setCalls_assignConvs _ hnone, Function.comp_apply]
    by_cases heq : id' = id
    · subst heq
      obtain rfl : f = f' := Option.some.inj (hf.symm.trans hf')
      simp [hid, Treatment.header_assignConvs]
    · simp [heq]
  · have hglobals := h.globals
    cases plan f <;> exact hglobals
  · have htriple := h.triple
    cases plan f <;> exact htriple

/-- What has become of the module once all functions are treated. -/
structure Treated (plan : Func → Treatment) (m m' : Module) : Prop where
  funcs : ∀ id, m'.funcs.get? id = (m.funcs.get? id).map fun f =>
    ((plan f).header f).assignConvs fun id' => (m.funcs.get? id').bind fun f' => (plan f').conv?
  globals : m'.globals = m.globals
  triple : m'.triple = m.triple

theorem Underway.treated (h : m.Underway plan [] m₁) : m.Treated plan m₁ := by
  have hchosen : m.chosen plan [] = fun id => (m.funcs.get? id).bind fun f => (plan f).conv? :=
    rfl
  refine ⟨fun id => ?_, h.globals, h.triple⟩
  rw [h.funcs, hchosen]
  simp

end Module

namespace ModuleM

variable {plan : Func → Treatment} {m m' : Module}

/-- Nothing calls the function if the pass takes it for a kernel. -/
def Uncalled (plan : Func → Treatment) (m : Module) (id : FuncId) : Prop :=
  ∀ f, m.funcs.get? id = some f → (plan f).isKernel = true → m.callSites id = []

section Rounds

variable {rest : List FuncId} {id : FuncId} {m₁ m₂ : Module}
  (hplan : ∀ σ f, plan (f.assignConvs σ) = plan f)
  (h : m.Underway plan (id :: rest) m₁)

include hplan h

theorem func_of_underway : ∃ f g, m.funcs.get? id = some f ∧ m₁.funcs.get? id = some g ∧
    plan g = plan f := by
  obtain ⟨f, hf⟩ := Arena.contains_iff.1 (h.live id List.mem_cons_self)
  refine ⟨f, f.assignConvs (m.chosen plan (id :: rest)), hf, ?_, hplan _ _⟩
  rw [h.funcs, hf]
  simp

theorem treat_of_uncalled (hid : Uncalled plan m id) : ∃ g m₂, m₁.funcs.get? id = some g ∧
    (treat (CallGraph.ofModule m) id (plan g)).apply m₁ = (.ok ⟨⟩, m₂) ∧
      m.Underway plan rest m₂ := by
  obtain ⟨f, g, hf, hg, heq⟩ := func_of_underway hplan h
  refine ⟨g, _, hg, treat_apply (Arena.contains_iff.2 ⟨g, hg⟩) ?_, heq ▸ h.treat hf⟩
  rw [heq]
  intro ht
  exact (CallGraph.callers_eq_nil_iff (h.live id List.mem_cons_self)).2 (hid f hf ht)

theorem round_of_uncalled (hid : Uncalled plan m id) : ∃ m₂,
    (do treat (CallGraph.ofModule m) id (plan (← func id))).apply m₁ = (.ok ⟨⟩, m₂) ∧
      m.Underway plan rest m₂ := by
  obtain ⟨g, m₂, hg, htreat, hm₂⟩ := treat_of_uncalled hplan h hid
  refine ⟨m₂, ?_, hm₂⟩
  rw [apply_bind, apply_func, hg]
  exact htreat

theorem uncalled_of_round
    (hround : (do treat (CallGraph.ofModule m) id (plan (← func id))).apply m₁ = (.ok ⟨⟩, m₂)) :
    Uncalled plan m id := by
  obtain ⟨g, _, hfunc, htreat⟩ := bind_eq_ok hround
  obtain ⟨hg, rfl⟩ := func_eq_ok hfunc
  obtain ⟨f, g', hf, hg', heq⟩ := func_of_underway hplan h
  obtain rfl : g = g' := Option.some.inj (hg.symm.trans hg')
  intro f' hf' hkernel
  obtain rfl : f = f' := Option.some.inj (hf.symm.trans hf')
  rw [← heq] at hkernel
  exact (CallGraph.callers_eq_nil_iff (h.live id List.mem_cons_self)).1
    (callers_of_treat htreat hkernel)

end Rounds

variable (hplan : ∀ σ f, plan (f.assignConvs σ) = plan f)

include hplan

theorem treatAll_ok_iff : (∃ m', (treatAll plan).apply m = (.ok ⟨⟩, m')) ↔
    ∀ id f, m.funcs.get? id = some f → (plan f).isKernel = true → m.callSites id = [] := by
  have hloop : (∃ m', (treatAll plan).apply m = (.ok ⟨⟩, m')) ↔
      ∀ id ∈ m.funcs.ids, Uncalled plan m id := by
    rw [treatAll_apply]
    exact forM_ok_iff (I := fun rest => m.Underway plan rest)
      (fun _ _ _ h hid => round_of_uncalled hplan h hid)
      (fun _ _ _ _ h hround => uncalled_of_round hplan h hround) Module.underway
  rw [hloop]
  constructor
  · intro h id f hf
    exact h id (by simp [Arena.mem_ids_iff, hf]) f hf
  · exact fun h id _ => h id

theorem treated_of_treatAll (h : (treatAll plan).apply m = (.ok ⟨⟩, m')) : m.Treated plan m' := by
  have hloop : Triple (m.Underway plan m.funcs.ids)
      (m.funcs.ids.forM fun id => do treat (CallGraph.ofModule m) id (plan (← func id)))
      fun _ => m.Underway plan [] := by
    apply Triple.forM
    intro id rest m₁ _ m₂ hm₁ hround
    obtain ⟨m₂', hround', hm₂⟩ :=
      round_of_uncalled hplan hm₁ (uncalled_of_round hplan hm₁ hround)
    cases hround.symm.trans hround'
    exact hm₂
  rw [treatAll_apply] at h
  exact (hloop m _ m' Module.underway h).treated

end ModuleM

namespace Module

variable {plan : Func → Treatment} {m m' : Module}

/-- The convention that the callee has in the module, for a call that found it there before and
did not pass it over. -/
def calleeConv (m : Module) (skips : Func → Bool) (m' : Module) (c : Call) : CallConv :=
  match c.callee.resolve? with
  | none => c.conv
  | some id =>
    match m.funcs.get? id, m'.funcs.get? id with
    | some f, some f' => if skips f then c.conv else f'.conv
    | _, _ => c.conv

/-- A pass has changed the conventions of calls, and nothing else about them: a call has that of
its callee, unless the callee is passed over or is no function of the module. -/
def ConvsAgree (m : Module) (skips : Func → Bool) (m' : Module) : Prop :=
  ∀ id, (m'.funcs.get? id).map Func.calls = (m.funcs.get? id).map fun f =>
    f.calls.map fun e => (e.1, { e.2 with conv := m.calleeConv skips m' e.2 })

theorem not_mem_calls_of_callSites {id id' : FuncId} {f : Func} (h : m.callSites id = [])
    (hf : m.funcs.get? id' = some f) {e : Position × Call} (he : e ∈ f.calls) :
    e.2.callee.resolve? ≠ some id := by
  intro hresolve
  have hsite : CallSite.mk id' e.1 ∈ m.callSites id :=
    List.mem_flatMap.2 ⟨(id', f), Arena.mem_entries_iff.2 hf,
      List.mem_map.2 ⟨e, List.mem_filter.2 ⟨he, by simp [hresolve]⟩, rfl⟩⟩
  rw [h] at hsite
  cases hsite

theorem Treated.convsAgree {skips : Func → Bool} (h : m.Treated plan m')
    (hskips : ∀ f, (plan f).isKernel = false → ((plan f).conv? = none ↔ skips f = true))
    (huncalled : ∀ id f, m.funcs.get? id = some f → (plan f).isKernel = true →
      m.callSites id = []) : m.ConvsAgree skips m' := by
  intro id
  rw [h.funcs, Option.map_map]
  apply Option.map_congr
  intro f hf
  have hcalls : ((plan f).header f).calls = f.calls := by
    cases plan f <;> rfl
  rw [Function.comp_apply, Func.calls_assignConvs, hcalls]
  apply List.map_congr_left
  intro e he
  suffices hconv : (e.2.callee.resolve?.bind fun id' =>
      (m.funcs.get? id').bind fun f' => (plan f').conv?).getD e.2.conv =
        m.calleeConv skips m' e.2 by
    rw [Call.assignConv, hconv]
  rw [calleeConv]
  cases hresolve : e.2.callee.resolve? with
  | none => rfl
  | some callee =>
      simp only [h.funcs]
      cases hg : m.funcs.get? callee with
      | none => simp [hg]
      | some g =>
          -- The call would be a call site of the kernel.
          have hkernel : (plan g).isKernel = false := by
            by_contra hkernel
            exact not_mem_calls_of_callSites (huncalled callee g hg (by simpa using hkernel)) hf he
              hresolve
          have hskip := hskips g hkernel
          cases hp : plan g with
          | skip =>
              have hskip : skips g = true := hskip.1 (by simp [hp, Treatment.conv?])
              simp [hg, hp, hskip, Treatment.conv?]
          | keep | mark => simp [hp, Treatment.isKernel] at hkernel
          | assign conv =>
              have hskip : skips g = false := by simpa [hp, Treatment.conv?] using hskip
              simp [hg, hp, hskip, Treatment.conv?, Treatment.header, Func.assignConvs,
                Func.mapBlocks]

end Module

namespace ModuleM

open Treatment

theorem isKernel_uniform (conv : CallConv) (f : Func) : (uniform conv f).isKernel = false := by
  rw [uniform]
  split_ifs <;> rfl

theorem unifyConventions_ok (conv : CallConv) (m : Module) : ∃ n m',
    (unifyConventions conv).apply m = (.ok n, m') ∧ m.Treated (uniform conv) m' := by
  have hround : ∀ id rest m₁, m.Underway (uniform conv) (id :: rest) m₁ → ∃ n m₂,
      (do
        if (← func id).isIntrinsic then return 0
        let _ ← setConv id conv
        return 1 : ModuleM Nat).apply m₁ = (.ok n, m₂) ∧
        m.Underway (uniform conv) rest m₂ := by
    intro id rest m₁ h
    have huncalled : Uncalled (uniform conv) m id := by
      intro f _ hkernel
      simp [isKernel_uniform] at hkernel
    obtain ⟨g, m₂, hg, htreat, hm₂⟩ := treat_of_uncalled (uniform_assignConvs conv) h huncalled
    rw [uniform] at htreat
    refine ⟨if g.isIntrinsic then 0 else 1, m₂, ?_, hm₂⟩
    rw [apply_bind, apply_func, hg]
    dsimp only
    split_ifs at htreat ⊢ with hintrinsic
    · cases htreat
      rfl
    · obtain ⟨_, _, hconv, hpure⟩ := bind_eq_ok htreat
      cases hpure
      rw [apply_bind, hconv]
      rfl
  obtain ⟨n, m', h, hm'⟩ := sumOver_ok (I := fun rest _ => m.Underway (uniform conv) rest)
    (fun id rest _ m₁ h => hround id rest m₁ h) Module.underway
  exact ⟨n, m', h, hm'.treated⟩

theorem isKernel_device {f : Func} : (device f).isKernel = true ↔ f.conv = .spirKernel := by
  have hkernel : f.isKernel .callingConvention = true ↔ f.conv = .spirKernel := by
    simp [Func.isKernel]
  rw [device, ← hkernel]
  split_ifs with h h' <;> simp [Treatment.isKernel, h]

theorem isKernel_synthesis {afterO3 : Bool} {f : Func} :
    (synthesis afterO3 f).isKernel = true ↔ f.isIntrinsic = false ∧ f.conv = .spirKernel ∧
      f.attributes.contains topFunctionKey = false := by
  rw [synthesis]
  split_ifs with h h' <;> grind [Treatment.isKernel]

theorem conv?_device {f : Func} (hf : (device f).isKernel = false) :
    (device f).conv? = none ↔ f.isIntrinsic = true := by
  rw [device] at hf ⊢
  split_ifs with h h' <;> simp_all [Treatment.isKernel, Treatment.conv?]

theorem conv?_synthesis {afterO3 : Bool} {f : Func} (hf : (synthesis afterO3 f).isKernel = false) :
    (synthesis afterO3 f).conv? = none ↔
      (f.isIntrinsic || f.attributes.contains topFunctionKey) = true := by
  rw [synthesis, Bool.or_comm] at hf ⊢
  split_ifs at hf ⊢ with h h' <;> simp_all [Treatment.isKernel, Treatment.conv?]

theorem conv?_uniform {conv : CallConv} {f : Func} :
    (uniform conv f).conv? = none ↔ f.isIntrinsic = true := by
  rw [uniform]
  split_ifs with h <;> simp [Treatment.conv?, h]

/-- A pass that sets kernels apart succeeds exactly if no kernel has a call site.  Afterwards a call
has the convention of its callee, unless the pass skips the callee, and the other calls have the
convention that they had.  The pass that sets one convention throughout always succeeds. -/
theorem conventions_agree (m : Module) :
    ((∃ m', useDeviceConventions.apply m = (.ok ⟨⟩, m')) ↔
      ∀ id f, m.funcs.get? id = some f → f.conv = .spirKernel → m.callSites id = []) ∧
    (∀ m', useDeviceConventions.apply m = (.ok ⟨⟩, m') → m.ConvsAgree Func.isIntrinsic m') ∧
    (∀ afterO3,
      ((∃ m', (useSynthesisConventions afterO3).apply m = (.ok ⟨⟩, m')) ↔
        ∀ id f, m.funcs.get? id = some f → f.isIntrinsic = false ∧ f.conv = .spirKernel ∧
          f.attributes.contains topFunctionKey = false → m.callSites id = []) ∧
      ∀ m', (useSynthesisConventions afterO3).apply m = (.ok ⟨⟩, m') →
        m.ConvsAgree (fun f => f.isIntrinsic || f.attributes.contains topFunctionKey) m') ∧
    ∀ conv, ∃ n m', (unifyConventions conv).apply m = (.ok n, m') ∧
      m.ConvsAgree Func.isIntrinsic m' := by
  have hdevice := treatAll_ok_iff (m := m) device_assignConvs
  have hsynthesis := fun afterO3 => treatAll_ok_iff (m := m) (synthesis_assignConvs afterO3)
  refine ⟨?_, ?_, fun afterO3 => ⟨?_, ?_⟩, fun conv => ?_⟩
  · rw [useDeviceConventions_eq, hdevice]
    simp only [isKernel_device]
  · rw [useDeviceConventions_eq]
    intro m' h
    have ht := treated_of_treatAll device_assignConvs h
    exact ht.convsAgree (fun f hf => conv?_device hf) (hdevice.1 ⟨m', h⟩)
  · rw [useSynthesisConventions_eq, hsynthesis]
    simp only [isKernel_synthesis]
  · rw [useSynthesisConventions_eq]
    intro m' h
    have ht := treated_of_treatAll (synthesis_assignConvs afterO3) h
    exact ht.convsAgree (fun f hf => conv?_synthesis hf) ((hsynthesis afterO3).1 ⟨m', h⟩)
  · obtain ⟨n, m', h, hm'⟩ := unifyConventions_ok conv m
    refine ⟨n, m', h, hm'.convsAgree (fun f _ => conv?_uniform) ?_⟩
    intro id f hf hkernel
    simp [isKernel_uniform] at hkernel

end ModuleM

end KernelIR
