import KernelIR.Proofs.Conventions
import KernelIR.Proofs.Edges
import KernelIR.Proofs.Naming.Definitions
import KernelIR.Proofs.WellFormed.Casts
import KernelIR.Proofs.WellFormed.Preparation
import Mathlib

/-!
# One function through a run

What decides on the role of a function is its convention, its body being there, and the mark of a
top-level function.  All steps of the pipeline but those that set conventions leave these alone, as
they do the triple of the module.
-/

namespace KernelIR

/-- What decides on the role of `f` is so for `g`; marks may have been added. -/
structure Func.Alike (f g : Func) : Prop where
  conv : g.conv = f.conv
  isDeclaration : g.isDeclaration = f.isDeclaration
  marked : f.attributes.contains topFunctionKey = true →
    g.attributes.contains topFunctionKey = true

namespace Func

variable {f g h : Func}

theorem Alike.refl (f : Func) : f.Alike f := ⟨rfl, rfl, fun h => h⟩

theorem Alike.trans (h₁ : f.Alike g) (h₂ : g.Alike h) : f.Alike h :=
  ⟨h₂.conv.trans h₁.conv, h₂.isDeclaration.trans h₁.isDeclaration,
    fun hf => h₂.marked (h₁.marked hf)⟩

/-- Only the body differs, and is there if it was. -/
theorem alike_of_body (hg : g = { f with body := g.body })
    (hdecl : g.isDeclaration = f.isDeclaration) : f.Alike g := by
  refine ⟨by rw [hg], hdecl, fun hf => ?_⟩
  rw [hg]
  exact hf

theorem alike_mapBlocks (f : Func) (k : Block → Block) : f.Alike (f.mapBlocks k) := by
  refine ⟨rfl, ?_, fun h => h⟩
  simp [isDeclaration, mapBlocks, OrderedMap.isEmpty, OrderedMap.map]

theorem alike_removeInstr {pos : Position} {i : Instr} (hr : f.removeInstr pos = .ok (i, g)) :
    f.Alike g := by
  refine alike_of_body (removeInstr_eq_body hr) ?_
  cases hb : f.body.find? pos.label with
  | none => simp [removeInstr, hb] at hr
  | some b =>
      obtain ⟨-, rfl⟩ := removeInstr_eq_ok hr hb
      rw [isDeclaration_of_find? hb]
      exact isDeclaration_of_find? (OrderedMap.find?_insert_self _ _ _)

theorem alike_annotate (f : Func) (annotations : List (String × String)) :
    f.Alike (f.annotate annotations) := by
  refine ⟨rfl, rfl, fun h => ?_⟩
  rw [annotate]
  generalize f.attributes = a at h
  induction annotations generalizing a with
  | nil => exact h
  | cons e es ih => exact ih _ (a.contains_insert h)

theorem alike_replaceInstr (f : Func) (pos : Position) (new : List Instr) :
    f.Alike (f.replaceInstr pos new) := by
  refine ⟨rfl, ?_, fun h => h⟩
  simp [isDeclaration, replaceInstr, OrderedMap.isEmpty, OrderedMap.modify]

theorem isDeclaration_of_perm {es : List (Label × Block)} (hp : f.body.entries.Perm es)
    (hne : es ≠ []) : f.isDeclaration = false := by
  have hbody : f.body.entries ≠ [] := fun hnil => hne (by simpa [hnil] using hp)
  simpa [isDeclaration, OrderedMap.isEmpty] using hbody

theorem alike_splice {caller callee : Func} {call : Call} {pos : Position} {cont : Label}
    (hs : Inline.splice caller call callee pos = .ok (cont, f))
    (hcall : caller.callAt pos = .ok call) : caller.Alike f := by
  obtain ⟨b, hb, -, -, hbody, hp⟩ := Inline.splice_eq_ok hs hcall
  refine alike_of_body hbody ?_
  rw [isDeclaration_of_find? hb]
  exact isDeclaration_of_perm hp (by simp [Inline.joined])

theorem alike_expand {pos : Position} {call : Call} {c : MemCall}
    (hcall : f.callAt pos = .ok call) (he : c.expand f pos = .ok g) : f.Alike g := by
  obtain ⟨b, hb, -⟩ := callAt_eq_ok_iff.1 hcall
  obtain ⟨opened, -, hbody, hp⟩ := MemCall.entries_expand hb he
  refine alike_of_body hbody ?_
  rw [isDeclaration_of_find? hb]
  exact isDeclaration_of_perm hp (by simp [cutBlocks])

end Func

namespace Module

/-- The module has the triple, and what is under `id` has the role of `f` and one of the names.
Without `f` nothing is said of `id`. -/
structure Tracked (triple : Option String) (id : FuncId) (f : Option Func) (names : String → Prop)
    (m : Module) : Prop where
  triple : m.triple = triple
  func : ∀ f₀ ∈ f, ∃ g, m.funcs.get? id = some g ∧ f₀.Alike g ∧ names g.name

namespace Tracked

variable {t : Option String} {id id' : FuncId} {f : Option Func} {g g' : Func}
  {names : String → Prop} {m m' : Module}

theorem congr (h : m.Tracked t id f names) (hfuncs : m'.funcs = m.funcs)
    (htriple : m'.triple = m.triple) : m'.Tracked t id f names :=
  ⟨htriple.trans h.triple, hfuncs ▸ h.func⟩

theorem of_get? (h : m.Tracked t id f names) (htriple : m'.triple = m.triple)
    (hget : ∀ g, m.funcs.get? id = some g → f.isSome = true →
      ∃ g', m'.funcs.get? id = some g' ∧ g.Alike g' ∧ (names g.name → names g'.name)) :
    m'.Tracked t id f names := by
  refine ⟨htriple.trans h.triple, fun f₀ hf₀ => ?_⟩
  obtain ⟨g, hg, halike, hnames⟩ := h.func f₀ hf₀
  obtain ⟨g', hg', halike', hname⟩ := hget g hg (Option.isSome_of_mem hf₀)
  exact ⟨g', hg', halike.trans halike', hname hnames⟩

theorem modifyFunc (h : m.Tracked t id f names) {k : Func → Func} (hk : ∀ g : Func, g.Alike (k g))
    (hname : ∀ g, m.funcs.get? id' = some g → id' = id → f.isSome = true → names g.name →
      names (k g).name) :
    (m.modifyFunc id' k).Tracked t id f names := by
  refine h.of_get? rfl fun g hg hsome => ?_
  by_cases heq : id' = id
  · subst heq
    exact ⟨k g, by simp [Module.modifyFunc, hg], hk g, hname g hg rfl hsome⟩
  · refine ⟨g, ?_, Func.Alike.refl g, fun h => h⟩
    rw [Module.modifyFunc, Arena.get?_modify_of_ne _ (Ne.symm heq), hg]

theorem setFunc (h : m.Tracked t id f names) (hg : m.funcs.get? id' = some g) (hk : g.Alike g')
    (hname : g'.name = g.name) : (m.setFunc id' g').Tracked t id f names := by
  have hu := updated_setFunc hg g'
  refine h.of_get? rfl fun g₀ hg₀ _ => ?_
  by_cases heq : id' = id
  · subst heq
    obtain rfl : g = g₀ := Option.some.inj (hg.symm.trans hg₀)
    exact ⟨g', hu.self, hk, fun h => hname.symm ▸ h⟩
  · exact ⟨g₀, (hu.other id (Ne.symm heq)).trans hg₀, Func.Alike.refl g₀, fun h => h⟩

theorem of_map (h : m.Tracked t id f names) {k : Func → Func} (hk : ∀ g : Func, g.Alike (k g))
    (hname : ∀ g, (k g).name = g.name) (hfuncs : m'.funcs = m.funcs.map k)
    (htriple : m'.triple = m.triple) : m'.Tracked t id f names := by
  refine h.of_get? htriple fun g hg _ => ⟨k g, ?_, hk g, fun h => (hname g).symm ▸ h⟩
  rw [hfuncs, Arena.get?_map, hg]
  rfl

theorem erase (h : m.Tracked t id f names) (hne : f.isSome = true → id' ≠ id) :
    ({ m with funcs := m.funcs.erase id' } : Module).Tracked t id f names := by
  refine h.of_get? rfl fun g hg hsome => ⟨g, ?_, Func.Alike.refl g, fun h => h⟩
  exact (Arena.get?_erase_of_ne _ (Ne.symm (hne hsome))).trans hg

/-- What is tracked has one of the names. -/
theorem names_of_isSome (h : m.Tracked t id f names) (hf : f.isSome = true)
    (hg : m.funcs.get? id = some g) : names g.name := by
  obtain ⟨f₀, hf₀⟩ := Option.isSome_iff_exists.1 hf
  obtain ⟨g', hg', -, hname⟩ := h.func f₀ hf₀
  rwa [Option.some.inj (hg.symm.trans hg')]

theorem renameFunc {name : String} (h : m.Tracked t id f names)
    (hr : m.renameFunc id' name = .ok m')
    (hname : ∀ g, m.funcs.get? id' = some g → id' = id → f.isSome = true → names g.name →
      names name) : m'.Tracked t id f names := by
  rw [Module.renameFunc] at hr
  split at hr
  · cases hr
  · split_ifs at hr
    · cases hr
      exact h
    · cases hr
      exact h.modifyFunc (fun _ => ⟨rfl, rfl, fun h => h⟩) hname

theorem replaceFunc {new : FuncId} {r : Func} (h : m.Tracked t id f names)
    (hr : m.replaceFunc id' new = .ok (r, m')) (hne : f.isSome = true → id' ≠ id) :
    m'.Tracked t id f names := by
  obtain ⟨-, -, -, -, -, rfl⟩ := replaceFunc_eq_ok hr
  have hredirect : (m.redirect (sendTo id' new)).Tracked t id f names :=
    h.of_map (fun g => g.alike_mapBlocks (Block.mapFuncs (sendTo id' new))) (fun _ => rfl) rfl rfl
  exact hredirect.erase hne

end Tracked

end Module

namespace ModuleM

open KernelIR.Module Pipeline

variable {t : Option String} {id : FuncId} {f : Option Func} {names : String → Prop}

theorem tracked_unwrapWrappers (mode : KernelMode) (steps : Nat) :
    Keeps (Tracked t id f names) (unwrapWrappers mode steps) := by
  have hmoves : ∀ {w w' : WrapperWalk} {m m' : Module}, m.Tracked t id f names →
      WrapperWalk.Moves w m w' m' → m'.Tracked t id f names := by
    intro w w' m m' h hmove
    -- All other moves change nothing but the state of the walk.
    cases hmove with
    | unwrap hpath hf hnext hactive hdone hg hinline =>
        obtain ⟨caller, call, _, callee, f', hx, hs, rfl⟩ := inlineAt_eq_ok hinline
        obtain ⟨-, -, -, -, hbody, -⟩ := Inline.splice_eq_ok hs hx.call_at
        refine Tracked.setFunc ?_ hx.caller_live (Func.alike_splice hs hx.call_at) (by rw [hbody])
        exact h.modifyFunc (fun g => g.alike_annotate _) fun _ _ _ _ h => h
    | _ => exact h
  refine Triple.keeps_get.bind fun _ m n m' hm hrun => ?_
  obtain ⟨w, hm', -⟩ :=
    WrapperWalk.run_eq_ok (P := fun _ => Tracked t id f names) hmoves hm hrun
  exact hm'

theorem tracked_hideSymbols : Keeps (Tracked t id f names) (change Module.hideSymbols) := by
  refine Triple.change fun m h => h.of_map (fun g => ?_) (fun g => ?_) rfl rfl
  · split
    · exact ⟨rfl, rfl, fun h => h⟩
    · exact Func.Alike.refl g
  · split <;> rfl

theorem tracked_expandMemCallsOf (id' : FuncId) (bound : Nat) :
    Keeps (Tracked t id f names) (expandMemCallsOf expandMemCall id' bound) := by
  induction bound with
  | zero => exact Triple.pure fun _ hm => hm
  | succ bound ih =>
      refine Triple.keeps_get.bind fun m => ?_
      split
      · exact Triple.pure fun _ h => h
      · refine Triple.bind (R := fun _ => Tracked t id f names)
          (Triple.edit fun m₁ _ m' h he => ?_) fun _ => ih.bind fun _ => Triple.pure fun _ h => h
        obtain ⟨m₂, he, heq⟩ := map_eq_ok he
        cases heq
        obtain ⟨g, call, c, g', hg, hcall, -, hexpand, rfl⟩ := exists_expand_of_expandMemCall he
        obtain ⟨b, hb, -⟩ := Func.callAt_eq_ok_iff.1 hcall
        obtain ⟨-, -, hbody, -⟩ := MemCall.entries_expand hb hexpand
        exact h.setFunc hg (Func.alike_expand hcall hexpand) (by rw [hbody])

theorem tracked_expandMemCalls : Keeps (Tracked t id f names) expandMemCalls :=
  Triple.keeps_get.bind fun m => Triple.sumOver (I := fun _ => Tracked t id f names)
    (fun id' _ => Triple.keeps_get.bind fun _ => tracked_expandMemCallsOf id' _) m.funcs.ids

theorem tracked_dropCallCast (site : CallSite) (callee : FuncId) :
    Keeps (Tracked t id f names) (dropCallCast site callee) := by
  refine (Triple.keeps_func callee).bind fun target => Triple.func_bind fun m caller h hcaller => ?_
  split
  · exact Triple.throw _
  · refine Triple.get_bind fun m' hm' => ?_
    rw [word_some_bind]
    refine Triple.set fun _ _ => ?_
    subst hm'
    exact h.setFunc hcaller (caller.alike_replaceInstr _ _) rfl

theorem tracked_dropCallCasts : Keeps (Tracked t id f names) dropCallCasts := by
  have hbound : ∀ bound, Keeps (Tracked t id f names) (dropCallCastsUpTo dropCallCast bound) := by
    intro bound
    induction bound with
    | zero => exact Triple.pure fun _ hm => hm
    | succ bound ih =>
        refine Triple.keeps_get.bind fun m => ?_
        split
        · exact Triple.pure fun _ h => h
        · exact (tracked_dropCallCast _ _).bind fun _ => ih.bind fun _ => Triple.pure fun _ h => h
  exact Triple.keeps_get.bind fun m => hbound _

theorem tracked_requestInlining : Keeps (Tracked t id f names) (change Module.requestInlining) := by
  refine Triple.change fun m h => h.of_map (fun g => ?_) (fun g => ?_) rfl rfl
  · split
    · exact ⟨rfl, rfl, fun h => h⟩
    · exact Func.Alike.refl g
  · split <;> rfl

theorem tracked_requestFlattening :
    Keeps (Tracked t id f names) (change Module.requestFlattening) := by
  refine Triple.change fun m h => h.of_map (fun g => ?_) (fun g => ?_) rfl rfl
  · split
    · exact ⟨rfl, rfl, fun h => Attributes.contains_insert _ h⟩
    · exact Func.Alike.refl g
  · split <;> rfl

theorem tracked_foldCall (value : Operand) (site : CallSite) :
    Keeps (Tracked t id f names) (foldCall value site) := by
  refine Triple.func_bind fun m caller h hcaller => ?_
  split
  · exact Triple.throw _
  · next i g hr =>
      have halike := Func.alike_removeInstr hr
      have hname : g.name = caller.name := by rw [Func.removeInstr_eq_body hr]
      refine Triple.change fun m' hm' => ?_
      subst hm'
      split
      · exact h.setFunc hcaller (halike.trans (g.alike_mapBlocks _)) hname
      · exact h.setFunc hcaller halike hname

/-- The builtin that is erased is another function. -/
theorem tracked_foldGlobalId (hnames : ∀ name, names name → name ≠ globalIdName) :
    Keeps (Tracked t id f names) foldGlobalId := by
  refine Triple.get_bind fun m h => ?_
  split
  · exact Triple.pure fun _ hm => hm ▸ h
  · next builtin hbuiltin =>
      have hne : f.isSome = true → builtin ≠ id := by
        rintro hsome rfl
        obtain ⟨g, hg, hname⟩ := findFunc?_eq_some hbuiltin
        exact hnames g.name (h.names_of_isSome hsome hg) hname
      have hkeeps : Keeps (Tracked t id f names) (do
          let f ← func builtin
          if !f.isDeclaration then return 0
          let sites := (← get).callSites builtin
          sites.reverse.forM (foldCall (oneOf f.retTy))
          edit fun m => (IRError.lift (m.eraseFunc builtin)).map fun e => ((), e.2)
          return sites.length) := by
        refine (Triple.keeps_func builtin).bind fun f₀ => ?_
        split
        · exact Triple.pure fun _ h => h
        · refine Triple.keeps_get.bind fun m₁ => Triple.bind (Triple.forM
            (I := fun _ => Tracked t id f names) (fun s _ => tracked_foldCall _ s) _) fun _ =>
              Triple.bind (R := fun _ => Tracked t id f names)
                (Triple.edit fun m₂ _ m₃ h he => ?_) fun _ => Triple.pure fun _ h => h
          obtain ⟨r, he, heq⟩ := map_eq_ok he
          obtain ⟨-, -, hr⟩ := eraseFunc_eq_ok (lift_eq_ok he)
          cases heq
          exact hr ▸ h.erase hne
      exact hkeeps.conseq (fun m' hm' => hm' ▸ h) fun _ _ h => h

theorem tracked_setKernelName {m m' : Module} {id' : FuncId} {r : Option String}
    (h : m.Tracked t id f names) (hs : m.setKernelName id' = .ok (r, m'))
    (hnames : id' = id → ∀ name, names name →
      KernelName.isSynthesized name = true ∨ names (KernelName.synthesize name)) :
    m'.Tracked t id f names := by
  rw [setKernelName] at hs
  split at hs
  · cases hs
  · next g hg =>
      split_ifs at hs with hsynthesized
      · cases hs
        exact h
      · dsimp only at hs
        split at hs
        · cases hs
        · split at hs
          · cases hs
          · next hrename =>
              cases hs
              refine h.renameFunc hrename fun g' hg' heq _ hname => ?_
              obtain rfl : g = g' := Option.some.inj (hg.symm.trans hg')
              exact (hnames heq g.name hname).resolve_left hsynthesized

theorem tracked_attachWorkGroupSize {m m' : Module} {id' : FuncId} {d : Demangler} {sized : Bool}
    (h : m.Tracked t id f names) (ha : m.attachWorkGroupSize id' d = .ok (sized, m')) :
    m'.Tracked t id f names := by
  rw [attachWorkGroupSize] at ha
  split at ha
  · cases ha
  · split at ha
    · cases ha
    · cases ha
      exact h
    · cases ha
      exact h.modifyFunc (fun _ => ⟨rfl, rfl, fun h => h⟩) fun _ _ _ _ h => h

theorem tracked_nameParams (id' : FuncId) : Keeps (Tracked t id f names) (nameParams id') := by
  refine Triple.func_bind fun m g h hg => Triple.change fun m' hm' => ?_
  subst hm'
  exact h.setFunc hg ⟨rfl, rfl, fun h => h⟩ rfl

theorem tracked_collapseCast (id' : FuncId) (r : Reg) :
    Keeps (Tracked t id f names) (collapseCast id' r) := by
  refine Triple.func_bind fun m g h hg => ?_
  split
  · exact Triple.pure fun _ hm => hm ▸ h
  · split
    · exact Triple.throw _
    · next g' hr =>
        refine Triple.change fun m' hm' => ?_
        subst hm'
        refine h.setFunc hg ((Func.alike_removeInstr hr).trans (g'.alike_mapBlocks _)) ?_
        rw [Func.removeInstr_eq_body hr]
        rfl
    · next hr =>
        refine Triple.change fun m' hm' => ?_
        subst hm'
        exact h.setFunc hg (Func.alike_removeInstr hr) (by rw [Func.removeInstr_eq_body hr])

theorem tracked_collapseGenericCasts (id' : FuncId) :
    Keeps (Tracked t id f names) (collapseGenericCasts id') := by
  refine Triple.keeps_get.bind fun m => ?_
  split
  · exact Triple.pure fun _ h => h
  · exact (Triple.keeps_func id').bind fun g => Triple.sumOver (I := fun _ => Tracked t id f names)
      (fun r _ => tracked_collapseCast id' r) _

theorem tracked_decorateKernel {id' : FuncId} (d : Demangler) (counts : PipelineCounts)
    (hnames : id' = id → ∀ name, names name →
      KernelName.isSynthesized name = true ∨ names (KernelName.synthesize name)) :
    Keeps (Tracked t id f names) (decorateKernel d counts id') :=
  Triple.bind (R := fun _ => Tracked t id f names)
    (Triple.edit fun _ _ _ h ha => tracked_attachWorkGroupSize h ha) fun _ =>
      Triple.bind (R := fun _ => Tracked t id f names)
        (Triple.edit fun _ _ _ h hs => tracked_setKernelName h hs hnames) fun _ =>
          (tracked_nameParams id').bind fun _ => (tracked_collapseGenericCasts id').bind fun _ =>
            Triple.pure fun _ h => h

theorem tracked_rename (namer : DeviceNamer) {id' : FuncId}
    (hnames : id' = id → ∀ n, names (DeviceNamer.name n)) :
    Keeps (Tracked t id f names) (namer.rename id') := by
  refine Triple.bind (R := fun r m => m.Tracked t id f names ∧ ∃ n, r.1 = DeviceNamer.name n) ?_
    fun r => ?_
  · refine (Triple.keeps_func id').bind fun g => Triple.keeps_get.bind fun m => ?_
    exact Triple.pure fun _ h => ⟨h, _, rfl⟩
  · refine Triple.bind (R := fun _ => Tracked t id f names) (Triple.edit fun m₁ _ m₂ h hr => ?_)
      fun _ => Triple.pure fun _ h => h
    obtain ⟨h, n, hname⟩ := h
    obtain ⟨m', hrename, heq⟩ := map_eq_ok hr
    cases heq
    exact h.renameFunc (lift_eq_ok hrename) fun _ _ heq _ _ => hname ▸ hnames heq n

theorem tracked_nameDeviceFunction (state : DeviceNamer × PipelineCounts) {id' : FuncId}
    (hnames : id' = id → ∀ n, names (DeviceNamer.name n)) :
    Keeps (Tracked t id f names) (nameDeviceFunction state id') :=
  (tracked_rename state.1 hnames).bind fun _ => (tracked_nameParams id').bind fun _ =>
    (tracked_collapseGenericCasts id').bind fun _ => Triple.pure fun _ h => h

theorem tracked_bindDeclaration {m m' : Module} {id' : FuncId} {r : Option String}
    (h : m.Tracked t id f names) (hb : m.bindDeclaration id' = .ok (r, m'))
    (hnames : id' = id → ∀ name, names name → MangledName.normalize name = .ok name) :
    m'.Tracked t id f names := by
  have hother : ∀ {g name}, m.funcs.get? id' = some g → MangledName.normalize g.name = .ok name →
      name ≠ g.name → f.isSome = true → id' ≠ id := by
    rintro g name hg hname hne hsome rfl
    have hsame := hnames rfl g.name (h.names_of_isSome hsome hg)
    exact hne (Except.ok.inj (hname.symm.trans hsame))
  cases bindDeclaration_eq_ok hb with
  | keep => exact h
  | rename hg hname hne hr =>
      exact h.renameFunc hr fun _ _ heq hsome _ => absurd heq (hother hg hname hne hsome)
  | merge hg hname hne hnew hprototype hr => exact h.replaceFunc hr (hother hg hname hne)

end ModuleM

/-- What the preparation for a flow makes of the role of a function: a kernel stays one, and what is
called in a flow of device functions is a device function. -/
structure Func.Prepares (flow : Flow) (f g : Func) : Prop where
  isDeclaration : g.isDeclaration = f.isDeclaration
  kernel : f.isKernel flow.kernelMode = true → g.isKernel flow.kernelMode = true
  device : flow = .spir → f.conv ≠ .spirKernel → g.conv = .spirFunc

namespace Func

variable {f g : Func} {mode : KernelMode}

theorem isKernel_iff : f.isKernel mode = true ↔ f.conv = .spirKernel ∨
    mode = .topFunctionAttribute ∧ f.attributes.contains topFunctionKey = true := by
  simp [isKernel]

theorem Alike.isKernel (h : f.Alike g) (hf : f.isKernel mode = true) : g.isKernel mode = true := by
  rw [isKernel_iff] at hf ⊢
  rw [h.conv]
  exact hf.imp_right (And.imp_right h.marked)

theorem prepares_device (h : f.Alike g) (hg : g.isIntrinsic = false) :
    f.Prepares .spir ((Treatment.device g).header g) := by
  constructor
  case isDeclaration =>
    rw [← h.isDeclaration]
    cases Treatment.device g <;> rfl
  case kernel =>
    intro hf
    have hkernel : g.isKernel .callingConvention = true := h.isKernel hf
    rw [Treatment.device, if_pos hkernel]
    exact hkernel
  case device =>
    intro _ hf
    have hkernel : ¬g.isKernel .callingConvention = true := by
      simpa [isKernel_iff, h.conv] using hf
    rw [Treatment.device, if_neg hkernel, hg]
    rfl

theorem prepares_synthesis (afterO3 : Bool) (h : f.Alike g) :
    f.Prepares .hls ((Treatment.synthesis afterO3 g).header g) := by
  constructor
  case isDeclaration =>
    rw [← h.isDeclaration]
    cases Treatment.synthesis afterO3 g <;> rfl
  case kernel =>
    intro hf
    have hkernel : g.isKernel .topFunctionAttribute = true := h.isKernel hf
    rw [Treatment.synthesis]
    split
    · exact hkernel
    · next hskip =>
        rw [Bool.or_eq_true, not_or] at hskip
        have hconv : g.conv = .spirKernel :=
          (isKernel_iff.1 hkernel).resolve_right fun h => hskip.1 h.2
        rw [if_pos hconv, isKernel_iff]
        exact Or.inr ⟨rfl, Attributes.contains_insert_self _ _ _⟩
  case device =>
    intro h
    cases h

end Func

namespace Module

variable {t : Option String} {id : FuncId} {f : Option Func} {names : String → Prop}
  {m m' : Module}

/-- Where a function that was tracked got to in the preparation. -/
def TrackedFrom (t : Option String) (id : FuncId) (f : Option Func) (names : String → Prop)
    (flow : Flow) (m : Module) : Prop :=
  ∃ f', (∀ f₀ ∈ f, ∃ f₁ ∈ f', f₀.Prepares flow f₁) ∧ m.Tracked t id f' names

theorem Tracked.treated {plan : Func → Treatment} {flow : Flow} (h : m.Tracked t id f names)
    (hnames : ∀ name, names name → name.startsWith "llvm." = false)
    (hplan : ∀ f g : Func, f.Alike g → g.isIntrinsic = false →
      f.Prepares flow ((plan g).header g))
    (ht : m.Treated plan m') : m'.TrackedFrom t id f names flow := by
  cases f with
  | none => exact ⟨none, by simp, ht.triple.trans h.triple, by simp⟩
  | some f₀ =>
      obtain ⟨g, hg, halike, hname⟩ := h.func f₀ rfl
      -- The calls in the body get new conventions too, but they do not matter for the role.
      obtain ⟨hdecl, hkernel, hdevice⟩ := hplan f₀ g halike (hnames g.name hname)
      obtain ⟨g', hg', hheader⟩ : ∃ g', m'.funcs.get? id = some g' ∧
          ∃ σ, g' = ((plan g).header g).assignConvs σ := by
        rw [ht.funcs, hg]
        exact ⟨_, rfl, _, rfl⟩
      obtain ⟨σ, rfl⟩ := hheader
      refine ⟨some (((plan g).header g).assignConvs σ), ?_, ht.triple.trans h.triple, ?_⟩
      · rintro _ ⟨⟩
        refine ⟨_, rfl, ?_, hkernel, hdevice⟩
        rw [Func.isDeclaration_assignConvs, hdecl]
      · rintro _ ⟨⟩
        refine ⟨_, hg', Func.Alike.refl _, ?_⟩
        cases plan g <;> exact hname

end Module

namespace ModuleM

open KernelIR.Module Pipeline

variable {t : Option String} {id : FuncId} {f : Option Func} {names : String → Prop}

theorem Triple.keeps_exists {α ι : Type} {x : ModuleM α} {A : ι → Prop} {P : ι → Module → Prop}
    (h : ∀ i, Keeps (P i) x) : Keeps (fun m => ∃ i, A i ∧ P i m) x :=
  fun m a m' ⟨i, hA, hP⟩ hx => ⟨i, hA, h i m a m' hP hx⟩

theorem triple_prepareFlow (flow : Flow) (afterO3 : Bool) (d : Demangler)
    (hnames : ∀ name, names name → name.startsWith "llvm." = false) :
    Triple (Tracked t id f names) (prepareFlow flow afterO3 d) fun _ =>
      TrackedFrom t id f names flow := by
  have hglobalId : ∀ name, names name → name ≠ globalIdName := by
    rintro name hname rfl
    have hfalse := hnames _ hname
    simp [globalIdName] at hfalse
  cases flow with
  | spir =>
      refine Triple.bind (R := fun _ => TrackedFrom t id f names .spir) ?_ fun _ =>
        (Triple.keeps_exists fun _ => tracked_requestInlining).bind fun _ =>
          Triple.pure fun _ h => h
      intro m _ m' h hrun
      rw [useDeviceConventions_eq] at hrun
      exact h.treated hnames (fun _ _ => Func.prepares_device)
        (treated_of_treatAll Treatment.device_assignConvs hrun)
  | hls =>
      have hflatten : ∀ folded : Nat, Keeps (TrackedFrom t id f names .hls) (do
          let _ ← change Module.requestFlattening
          pure folded) := fun folded : Nat =>
        (Triple.keeps_exists fun _ => tracked_requestFlattening).bind fun _ =>
          Triple.pure fun _ h => h
      refine Triple.bind (R := fun _ => TrackedFrom t id f names .hls) ?_ fun _ =>
        (keeps_checkBuiltins d).bind fun _ => ?_
      · intro m _ m' h hrun
        rw [useSynthesisConventions_eq] at hrun
        exact h.treated hnames (fun _ _ h _ => Func.prepares_synthesis afterO3 h)
          (treated_of_treatAll (Treatment.synthesis_assignConvs afterO3) hrun)
      · dsimp only
        split
        · exact (Triple.keeps_exists fun _ => tracked_foldGlobalId hglobalId).bind hflatten
        · exact Triple.bind (Triple.pure fun _ h => h) hflatten

theorem triple_prepareTracked (flow : Flow) (afterO3 : Bool) (d : Demangler) (steps : Nat)
    (hnames : ∀ name, names name → name.startsWith "llvm." = false) :
    Triple (Tracked t id f names) (prepare flow afterO3 d steps) fun _ =>
      TrackedFrom t id f names flow :=
  (tracked_unwrapWrappers flow.kernelMode steps).bind fun _ =>
    tracked_hideSymbols.bind fun _ => tracked_expandMemCalls.bind fun _ =>
      tracked_dropCallCasts.bind fun _ => (triple_prepareFlow flow afterO3 d hnames).bind fun _ =>
        Triple.pure fun _ h => h

theorem tracked_definitionsStage (d : Demangler) (mode : KernelMode)
    (preparation : Option PreparationCounts) (prepared : Module)
    (hkernel : id ∈ prepared.withRole mode .kernel → ∀ name, names name →
      KernelName.isSynthesized name = true ∨ names (KernelName.synthesize name))
    (hdevice : id ∈ prepared.withRole mode .deviceFunction → ∀ n, names (DeviceNamer.name n)) :
    Keeps (Tracked t id f names) (definitionsStage d mode preparation prepared) := by
  have hkernels := Triple.foldlM (f := decorateKernel d)
    (I := fun ids _ m => (∀ id' ∈ ids, id' ∈ prepared.withRole mode .kernel) ∧
      m.Tracked t id f names) fun id' ids counts => ?_
  have hdevices := Triple.foldlM (f := nameDeviceFunction)
    (I := fun ids _ m => (∀ id' ∈ ids, id' ∈ prepared.withRole mode .deviceFunction) ∧
      m.Tracked t id f names) fun id' ids state => ?_
  · refine Triple.bind (R := fun _ => Tracked t id f names)
      ((hkernels _ _).conseq (fun _ h => ⟨fun _ hid => hid, h⟩) fun _ _ h => h.2) fun counts => ?_
    refine Triple.bind (R := fun _ => Tracked t id f names)
      ((hdevices _ _).conseq (fun _ h => ⟨fun _ hid => hid, h⟩) fun _ _ h => h.2) fun _ => ?_
    exact Triple.pure fun _ h => h
  · intro m state' m' ⟨hids, h⟩ hrun
    refine ⟨fun id'' hid'' => hids id'' (List.mem_cons_of_mem _ hid''), ?_⟩
    refine tracked_nameDeviceFunction state (fun heq => hdevice ?_) m _ m' h hrun
    exact heq ▸ hids id' List.mem_cons_self
  · intro m counts' m' ⟨hids, h⟩ hrun
    refine ⟨fun id'' hid'' => hids id'' (List.mem_cons_of_mem _ hid''), ?_⟩
    refine tracked_decorateKernel d counts (fun heq => hkernel ?_) m _ m' h hrun
    exact heq ▸ hids id' List.mem_cons_self

theorem tracked_bindDeclarations (ids : List FuncId)
    (hnames : id ∈ ids → ∀ name, names name → MangledName.normalize name = .ok name) :
    Keeps (Tracked t id f names) (bindDeclarations ids) := by
  rw [bindDeclarations]
  refine Triple.conseq (Triple.sumOver
    (I := fun rest m => (∀ id' ∈ rest, id' ∈ ids) ∧ m.Tracked t id f names)
    (fun id' rest => ?_) ids) (fun _ h => ⟨fun _ hid => hid, h⟩) fun _ _ h => h.2
  refine Triple.bind (R := fun _ m => (∀ id' ∈ rest, id' ∈ ids) ∧ m.Tracked t id f names)
    (Triple.edit fun m _ m' ⟨hids, h⟩ hb => ?_) fun name => ?_
  · refine ⟨fun id'' hid'' => hids id'' (List.mem_cons_of_mem _ hid''), ?_⟩
    exact tracked_bindDeclaration h hb fun heq => hnames (heq ▸ hids id' List.mem_cons_self)
  · split <;> exact Triple.pure fun _ h => h

/-- Without a uniform convention the finishing touches leave functions alone. -/
theorem triple_finish {c : Config} (huniform : c.uniformConv = none) :
    Triple (Tracked t id f names) (finish c) fun _ =>
      Tracked (if c.setTriple then some "spir64" else t) id f names := by
  refine Triple.bind (R := fun _ => Tracked t id f names)
    (Triple.change fun _ h => h.congr rfl rfl) fun _ =>
      Triple.bind (R := fun _ => Tracked t id f names)
        (Triple.change fun _ h => h.congr rfl rfl) fun _ => ?_
  dsimp only
  rw [huniform]
  split
  · refine Triple.bind (R := fun _ => Tracked (some "spir64") id f names)
      (Triple.change fun _ h => ⟨rfl, h.func⟩) fun _ => ?_
    exact Triple.pure fun _ h => h
  · exact Triple.pure fun _ h => h

end ModuleM

end KernelIR
