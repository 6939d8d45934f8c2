import KernelIR.Proofs.Handles.DeviceNames
import Mathlib

/-!
# Handles in use

Whatever the module, the pipeline looks functions up under live handles and copies labels that are
there.  Handles come from lists that were made before, so that each loop keeps the handles of its
list live: only the folding of builtins and the merging of declarations erase a function, and both
erase one that no list goes on to.
-/

namespace KernelIR

namespace ModuleM

/-- The action keeps the handles of `ids` live, and its failures are reports. -/
abbrev Spares {α : Type} (ids : Set FuncId) (x : ModuleM α) : Prop :=
  Outcome (Module.Alive ids) x (fun _ => Module.Alive ids) fun e _ => e.isReport = true

variable {ids : Set FuncId} {id : FuncId}

/-- What does not fail has no failure to report. -/
theorem Succeeds.spares {α : Type} {x : ModuleM α} (h : Succeeds ids x) : Spares ids x :=
  h.weaken fun _ _ => False.elim

namespace Spares

theorem pure {α : Type} (a : α) : Spares ids (pure a) := Outcome.pure fun _ hm => hm

theorem change {α : Type} {f : Module → α × Module}
    (h : ∀ m id, (f m).2.funcs.contains id = m.funcs.contains id) : Spares ids (change f) :=
  Outcome.change fun m hm => hm.congr (h m)

theorem edit {α : Type} {f : Module → Except Failure (α × Module)}
    (hok : ∀ m a m', f m = .ok (a, m') → ∀ id, m'.funcs.contains id = m.funcs.contains id)
    (herror : ∀ m e, m.Alive ids → f m = .error e → e.isReport = true) : Spares ids (edit f) :=
  Outcome.edit (fun m a m' hm h => hm.congr (hok m a m' h)) herror

/-- A function of the list may be looked up. -/
theorem func_bind {α : Type} {x : Func → ModuleM α} (hid : id ∈ ids)
    (h : ∀ f, Spares ids (x f)) : Spares ids (func id >>= x) :=
  Outcome.func_bind (fun _ hm => hm id hid) fun _ f hm _ =>
    (h f).conseq (fun _ heq => heq ▸ hm) fun _ _ hq => hq

theorem get_bind {α : Type} {x : Module → ModuleM α} (h : ∀ m, Spares ids (x m)) :
    Spares ids (get >>= x) :=
  Outcome.get_bind fun m hm => (h m).conseq (fun _ heq => heq ▸ hm) fun _ _ hq => hq

section Loops

variable {β : Type} {xs : List β}

theorem forM {f : β → ModuleM PUnit} (h : ∀ x ∈ xs, Spares ids (f x)) : Spares ids (xs.forM f) := by
  induction xs with
  | nil => exact pure _
  | cons x xs ih =>
      obtain ⟨hx, hxs⟩ := List.forall_mem_cons.1 h
      exact hx.bind fun _ => ih hxs

theorem foldlM {α : Type} {f : α → β → ModuleM α} (h : ∀ x ∈ xs, ∀ a, Spares ids (f a x)) (a : α) :
    Spares ids (xs.foldlM f a) := by
  induction xs generalizing a with
  | nil => exact pure a
  | cons x xs ih =>
      obtain ⟨hx, hxs⟩ := List.forall_mem_cons.1 h
      rw [List.foldlM_cons]
      exact (hx a).bind fun a' => ih hxs a'

theorem sumOver {f : β → ModuleM Nat} (h : ∀ x ∈ xs, Spares ids (f x)) :
    Spares ids (sumOver xs f) :=
  foldlM (fun x hx n => (h x hx).bind fun k => pure (n + k)) 0

end Loops

end Spares

/-- Handles that are live when they are looked for may be added to the list. -/
theorem spares_get_bind {α : Type} {x : Module → ModuleM α} (extra : Module → Set FuncId)
    (hextra : ∀ m, Module.Alive (extra m) m) (h : ∀ m, Spares (ids ∪ extra m) (x m)) :
    Spares ids (get >>= x) :=
  Outcome.get_bind fun m hm => (h m).conseq
    (fun _ heq id hid => heq ▸ hid.elim (hm id) (hextra m id))
    fun _ _ hq id hid => hq id (Or.inl hid)

section Preparation

theorem spares_hideSymbols : Spares ids (change Module.hideSymbols) :=
  .change fun m id => by simp [Module.hideSymbols, Arena.contains]

theorem spares_expandMemCallsOf (hid : id ∈ ids) (bound : Nat) :
    Spares ids (expandMemCallsOf expandMemCall id bound) := by
  induction bound with
  | zero => exact .pure 0
  | succ bound ih =>
      refine .get_bind fun m => ?_
      split
      · exact .pure 0
      · next pos kind rest _ =>
          refine Outcome.bind (R := fun _ => Module.Alive ids) (Spares.edit
            (fun m a m' h => ?_) fun m e hm h => ?_) fun _ => ih.bind fun n => Spares.pure (n + 1)
          · obtain ⟨m₁, h, heq⟩ := map_eq_ok h
            cases heq
            obtain ⟨_, _, _, _, -, -, -, -, rfl⟩ := Module.exists_expand_of_expandMemCall h
            exact fun id' => m.contains_setFunc _ id' _
          · exact isReport_of_map (fun e h => Module.isReport_of_expandMemCall (hm id hid) h) h

/-- A loop over all functions looks up functions that are there. -/
theorem spares_ids_bind {α : Type} {x : List FuncId → ModuleM α}
    (h : ∀ (ids' : Set FuncId) xs, (∀ id ∈ xs, id ∈ ids') → Spares ids' (x xs)) :
    Spares ids (get >>= fun m => x m.funcs.ids) := by
  refine spares_get_bind (fun m => {id | id ∈ m.funcs.ids})
    (fun m id hid => Arena.mem_ids_iff.1 hid) fun m => ?_
  exact h _ _ fun id hid => Or.inr hid

theorem spares_expandMemCalls : Spares ids expandMemCalls :=
  spares_ids_bind fun _ _ hxs => .sumOver fun id hid =>
    .get_bind fun _ => spares_expandMemCallsOf (hxs id hid) _

theorem spares_dropCallCast (site : CallSite) (callee : FuncId) :
    Outcome (fun m => m.Alive ids ∧ m.findDroppableCast? = some (site, callee))
      (dropCallCast site callee) (fun _ => Module.Alive ids) fun e _ => e.isReport = true := by
  have hsite : ∀ m : Module, m.findDroppableCast? = some (site, callee) →
      m.funcs.contains site.caller = true ∧ m.funcs.contains callee = true := by
    intro m h
    obtain ⟨f, -, hf, -, -, hcallee, -⟩ := Module.findDroppableCast?_eq_some h
    exact ⟨Arena.contains_iff.2 ⟨f, hf⟩, hcallee⟩
  refine Outcome.func_bind (fun m hm => (hsite m hm.2).2) fun m target ⟨hm, hfind⟩ _ =>
    Outcome.func_bind (fun m' hm' => hm' ▸ (hsite m hfind).1) fun m' caller hm' _ => ?_
  subst hm'
  split
  · exact Outcome.throw fun _ _ => rfl
  · refine Outcome.get_bind fun m hm' => ?_
    rw [word_some_bind]
    refine Outcome.set fun _ _ => ?_
    exact hm.congr fun id => hm' ▸ m.contains_setFunc _ _ _

theorem spares_dropCallCasts : Spares ids dropCallCasts := by
  have hupTo : ∀ bound, Spares ids (dropCallCastsUpTo dropCallCast bound) := by
    intro bound
    induction bound with
    | zero => exact .pure 0
    | succ bound ih =>
        refine Outcome.get_bind fun m hm => ?_
        split
        · exact Outcome.pure fun _ heq => heq ▸ hm
        · next site callee hfind =>
            refine Outcome.bind ((spares_dropCallCast site callee).conseq
              (fun _ heq => heq ▸ ⟨hm, hfind⟩) fun _ _ h => h) fun _ => ih.bind fun n =>
                Spares.pure (n + 1)
  exact .get_bind fun _ => hupTo _

theorem spares_requireUncalled {graph : CallGraph} {kernel : FuncId} (hkernel : kernel ∈ ids)
    (hcallers : ∀ caller ∈ graph.callers kernel, caller ∈ ids) :
    Spares ids (requireUncalled graph kernel) := by
  rw [requireUncalled]
  split
  · exact .pure _
  · next caller _ heq =>
      refine .func_bind hkernel fun _ => .func_bind (hcallers caller ?_) fun _ => ?_
      · rw [heq]
        exact List.mem_cons_self
      · exact Outcome.throw fun _ _ => rfl

theorem spares_setConv (hid : id ∈ ids) (conv : CallConv) : Spares ids (setConv id conv) :=
  .func_bind hid fun _ => .change fun m id' => by simp [Module.setConv]

theorem spares_treat {graph : CallGraph} (t : Treatment) (hid : id ∈ ids)
    (hcallers : ∀ caller ∈ graph.callers id, caller ∈ ids) : Spares ids (treat graph id t) := by
  cases t with
  | skip => exact .pure _
  | keep => exact spares_requireUncalled hid hcallers
  | mark =>
      exact (spares_requireUncalled hid hcallers).bind fun _ =>
        Spares.change fun m id' => m.contains_modifyFunc _ _ _
  | assign conv => exact (spares_setConv hid conv).bind fun _ => Spares.pure _

theorem spares_treatAll (plan : Func → Treatment) : Spares ids (treatAll plan) := by
  intro m hm
  rw [treatAll_apply]
  have hloop : Spares (ids ∪ {id | m.funcs.contains id = true}) (m.funcs.ids.forM fun id => do
      treat (CallGraph.ofModule m) id (plan (← func id))) := by
    refine .forM fun id hid => ?_
    have hid : m.funcs.contains id = true := Arena.mem_ids_iff.1 hid
    exact .func_bind (Or.inr hid) fun f => spares_treat _ (Or.inr hid) fun caller hcaller =>
      Or.inr (Module.contains_of_mem_callers hcaller)
  exact hloop.conseq (S := (· = m)) (T := fun _ => Module.Alive ids)
    (fun m' heq id hid => heq ▸ hid.elim (hm id) fun h => h)
    (fun _ _ h id hid => h id (Or.inl hid)) m rfl

theorem spares_checkBuiltins (d : Demangler) : Spares ids (checkBuiltins d) := by
  refine .edit (fun m a m' h => ?_) fun m e _ h => isReport_of_map (fun e h => ?_) h
  · obtain ⟨_, -, heq⟩ := map_eq_ok h
    cases heq
    exact fun _ => rfl
  · rw [Module.checkBuiltins] at h
    split at h
    · next e' hfind =>
        cases h
        obtain ⟨f, -, hcall⟩ := List.exists_of_findSome?_eq_some hfind
        obtain ⟨c, -, hcall⟩ := List.exists_of_findSome?_eq_some hcall
        obtain ⟨callee, -, hcall⟩ := Option.bind_eq_some_iff.1 hcall
        split_ifs at hcall
        cases hcall
        rfl
    · cases h

theorem spares_foldCall {site : CallSite} (value : Operand) (hsite : site.caller ∈ ids) :
    Spares ids (foldCall value site) := by
  refine .func_bind hsite fun caller => ?_
  split
  · exact Outcome.throw fun _ _ => rfl
  · exact .change fun m id => m.contains_setFunc _ _ _

/-- The folded builtin is erased, and no handle is needed after it. -/
theorem outcome_foldGlobalId (P : Module → Prop) :
    Outcome P foldGlobalId (fun _ _ => True) fun e _ => e.isReport = true := by
  refine Outcome.get_bind fun m hm => ?_
  split
  · exact Outcome.pure fun _ _ => trivial
  · next id hfind =>
      obtain ⟨f, hf, -⟩ := Module.findFunc?_eq_some hfind
      refine Outcome.func_bind (fun m' heq => heq ▸ Arena.contains_iff.2 ⟨f, hf⟩)
        fun m' builtin heq _ => ?_
      subst heq
      split
      · exact Outcome.pure fun _ _ => trivial
      · refine Outcome.get_bind fun m heq => ?_
        subst heq
        have hloop : Spares {id | m.funcs.contains id = true}
            ((m.callSites id).reverse.forM (foldCall (oneOf builtin.retTy))) :=
          .forM fun site hsite => spares_foldCall _
            (Module.contains_of_mem_callSites (List.mem_reverse.1 hsite))
        refine (hloop.conseq (S := (· = m)) (fun _ heq _ h => heq ▸ h) fun _ _ h => h).bind
          fun _ => Outcome.bind (R := fun _ _ => True) (Outcome.edit (fun _ _ _ _ _ => trivial)
            fun m e _ h => isReport_of_map (fun e h => isReport_of_lift h) h)
              fun _ => Outcome.pure fun _ _ => trivial

/-- What a loop over the functions of the module, and nothing else, keeps live is not needed. -/
theorem Spares.outcome {α : Type} {x : ModuleM α} (h : Spares ∅ x) :
    Outcome (fun _ => True) x (fun _ _ => True) fun e _ => e.isReport = true :=
  h.conseq (fun _ _ _ hid => hid.elim) fun _ _ _ => trivial

theorem outcome_prepareFlow (flow : Flow) (afterO3 : Bool) (d : Demangler) :
    Outcome (fun _ => True) (prepareFlow flow afterO3 d) (fun _ _ => True)
      fun e _ => e.isReport = true := by
  cases flow with
  | spir =>
      refine Outcome.bind (R := fun _ _ => True)
        (useDeviceConventions_eq ▸ (spares_treatAll _).outcome) fun _ => ?_
      exact Outcome.bind (R := fun _ _ => True) (Outcome.change fun _ _ => trivial)
        fun _ => Outcome.pure fun _ _ => trivial
  | hls =>
      refine Outcome.bind (R := fun _ _ => True)
        (useSynthesisConventions_eq afterO3 ▸ (spares_treatAll _).outcome) fun _ => ?_
      refine Outcome.bind (R := fun _ _ => True) (spares_checkBuiltins d).outcome fun _ => ?_
      have hflatten : ∀ n : Nat, Outcome (fun _ => True)
          (do let _ ← change Module.requestFlattening; pure n) (fun _ _ => True)
          fun e _ => e.isReport = true := fun n =>
        Outcome.bind (R := fun _ _ => True) (Outcome.change fun _ _ => trivial)
          fun _ => Outcome.pure fun _ _ => trivial
      split
      · exact (outcome_foldGlobalId _).bind hflatten
      · exact hflatten 0

end Preparation

end ModuleM

namespace WrapperWalk

/-- The handles that the walk will look up. -/
def handles (w : WrapperWalk) : Set FuncId := {id | id ∈ w.path ∨ id ∈ w.pending}

variable {w w' : WrapperWalk} {m m' : Module} {e : Failure}

theorem isReport_of_step (hw : m.Alive w.handles) (h : w.step.apply m = (.error e, m')) :
    e.isReport = true := by
  rw [step] at h
  split at h
  · cases h
  · split_ifs at h <;> cases h
  · next id outer hpath =>
      obtain ⟨f, hf⟩ := Arena.contains_iff.1 (hw id (Or.inl (hpath ▸ List.mem_cons_self)))
      simp only [ModuleM.apply_bind, ModuleM.apply_func, ModuleM.apply_get, hf] at h
      cases hnext : w.nextStep? m f with
      | none =>
          rw [hnext] at h
          cases h
      | some s =>
          rw [hnext] at h
          cases s with
          | descend callee => cases h
          | unwrap pos wrapper =>
              obtain ⟨call, g, -, -, hg, -⟩ := nextStep?_eq_unwrap hnext
              dsimp only at h
              split_ifs at h
              · rw [ModuleM.apply_bind, ModuleM.apply_func, hg] at h
                cases h
                rfl
              · rw [ModuleM.apply_bind, unwrapCall_apply hg] at h
                cases hi : (m.handOver g id).inlineAt ⟨id, pos⟩ with
                | error e' =>
                    rw [hi] at h
                    cases h
                    exact Module.isReport_of_inlineAt hi
                | ok r =>
                    rw [hi] at h
                    cases h
              · cases h

theorem Moves.contains_eq (h : Moves w m w' m') (id : FuncId) :
    m'.funcs.contains id = m.funcs.contains id := by
  cases h with
  | unwrap hpath hf hnext hactive hdone hg hinline =>
      obtain ⟨_, _, _, _, f', -, -, rfl⟩ := Module.inlineAt_eq_ok hinline
      rw [Module.contains_setFunc, Module.handOver, Module.contains_modifyFunc]
  | _ => rfl

/-- A move goes on with handles that it had, or with one that it looked up. -/
theorem Moves.mem_handles (h : Moves w m w' m') {id : FuncId} (hid : id ∈ w'.handles) :
    id ∈ w.handles ∨ m.funcs.contains id = true := by
  cases h with
  | skip hpath hpending hvisited =>
      exact Or.inl (hid.imp_right fun hid => hpending ▸ List.mem_cons_of_mem _ hid)
  | start hpath hpending hvisited =>
      refine Or.inl (Or.inr (hpending ▸ ?_))
      rcases hid with hid | hid
      · exact List.mem_singleton.1 hid ▸ List.mem_cons_self
      · exact List.mem_cons_of_mem _ hid
  | leave hpath hf hnext =>
      exact Or.inl (hid.imp_left fun hid => hpath ▸ List.mem_cons_of_mem _ hid)
  | descend hpath hf hnext =>
      obtain ⟨-, -, g, -, -, hg, -⟩ := nextStep?_eq_descend hnext
      rcases hid with hid | hid
      · rcases List.mem_cons.1 hid with rfl | hid
        · exact Or.inr (Arena.contains_iff.2 ⟨g, hg⟩)
        · exact Or.inl (Or.inl hid)
      · exact Or.inl (Or.inr hid)
  | enter hpath hf hnext hactive hdone =>
      obtain ⟨_, g, -, -, hg, -⟩ := nextStep?_eq_unwrap hnext
      rcases hid with hid | hid
      · rcases List.mem_cons.1 hid with rfl | hid
        · exact Or.inr (Arena.contains_iff.2 ⟨g, hg⟩)
        · exact Or.inl (Or.inl hid)
      · exact Or.inl (Or.inr hid)
  | unwrap hpath hf hnext hactive hdone hg hinline => exact Or.inl hid

/-- A run fails with a report unless it takes too many steps. -/
theorem outcome_run {ids : Set FuncId} (steps : Nat) (w : WrapperWalk) :
    ModuleM.Outcome (fun m => m.Alive ids ∧ m.Alive w.handles) (run steps w)
      (fun _ => Module.Alive ids) fun e _ => e.isReport = true ∨ e = .outOfSteps := by
  induction steps generalizing w with
  | zero => exact fun _ _ => Or.inr rfl
  | succ steps ih =>
      rintro m ⟨hids, hw⟩
      rw [run_succ_apply]
      rcases w.step_apply m with ⟨hs, -⟩ | ⟨e, m₁, hs, -⟩ | ⟨w₁, m₁, hs, hmove⟩
      · rw [hs]
        exact hids
      · rw [hs]
        exact Or.inl (isReport_of_step hw hs)
      · rw [hs]
        refine ih w₁ m₁ ⟨hids.congr hmove.contains_eq, fun id hid => ?_⟩
        rw [hmove.contains_eq]
        exact (hmove.mem_handles hid).elim (hw id) fun h => h

end WrapperWalk

namespace ModuleM

variable {ids : Set FuncId} {id : FuncId}

theorem outcome_unwrapWrappers (mode : KernelMode) (steps : Nat) :
    Outcome (Module.Alive ids) (unwrapWrappers mode steps) (fun _ => Module.Alive ids)
      fun e _ => e.isReport = true ∨ e = .outOfSteps := by
  refine Outcome.get_bind fun m hm => (WrapperWalk.outcome_run steps _).conseq ?_ fun _ _ h => h
  rintro _ rfl
  refine ⟨hm, ?_⟩
  rintro id (hid | hid)
  · exact absurd hid List.not_mem_nil
  · obtain ⟨e, he, rfl⟩ := List.mem_map.1 hid
    exact Arena.contains_iff.2 ⟨e.2, Arena.mem_entries_iff.1 (List.mem_filter.1 he).1⟩

section Naming

theorem spares_decorateKernel (d : Demangler) (counts : PipelineCounts) (hid : id ∈ ids) :
    Spares ids (Pipeline.decorateKernel d counts id) := by
  refine Outcome.bind (R := fun _ => Module.Alive ids) (Spares.edit (fun m a m' h => ?_)
    fun m e hm h => Module.isReport_of_attachWorkGroupSize (hm id hid) h) fun sized => ?_
  · obtain ⟨f, metadata, hr⟩ := Module.attachWorkGroupSize_eq_ok h
    exact hr.contains_eq
  · refine Outcome.bind (R := fun _ => Module.Alive ids) (Spares.edit (fun m a m' h => ?_)
      fun m e hm h => Module.isReport_of_setKernelName (hm id hid) h) fun renamed => ?_
    · obtain ⟨f, name, hr, -⟩ := Module.setKernelName_eq_ok h
      exact hr.contains_eq
    · exact (succeeds_nameParams hid).spares.bind fun _ =>
        (succeeds_collapseGenericCasts hid).spares.bind fun _ => Spares.pure _

/-- Declarations that are left to bind stay. -/
theorem outcome_bindDeclarations (declarations : List FuncId) (hnodup : declarations.Nodup) :
    Outcome (Module.Alive {id | id ∈ declarations}) (bindDeclarations declarations)
      (fun _ _ => True) fun e _ => e.isReport = true := by
  refine (Outcome.sumOver (I := fun ids _ m => ids.Nodup ∧ m.Alive {id | id ∈ ids})
    (fun id rest _ => ?_) declarations).conseq (fun m hm => ⟨hnodup, hm⟩) fun _ _ _ => trivial
  refine Outcome.bind (R := fun _ m => rest.Nodup ∧ m.Alive {id | id ∈ rest})
    (Outcome.edit (fun m r m' ⟨hnodup, hm⟩ h => ?_) fun m e hm h => ?_) fun r => ?_
  · obtain ⟨hid, hrest⟩ := List.nodup_cons.1 hnodup
    refine ⟨hrest, fun id' hid' => ?_⟩
    have hne : id' ≠ id := fun heq => hid (heq ▸ hid')
    rw [(Module.bindDeclaration_eq_ok h).contains_eq hne]
    exact hm id' (List.mem_cons_of_mem _ hid')
  · exact Module.isReport_of_bindDeclaration (hm.2 id List.mem_cons_self) h
  · split
    · exact Outcome.pure fun _ h => h
    · exact Outcome.pure fun _ h => h

end Naming

end ModuleM

namespace Pipeline

open ModuleM

/-- The finishing touches do not fail. -/
theorem finish_ok (c : Config) (m : Module) : ∃ m', (finish c).apply m = (.ok ⟨⟩, m') := by
  have hunify : ∀ conv (m : Module), ∃ m',
      (do let _ ← unifyConventions conv : ModuleM Unit).apply m = (.ok ⟨⟩, m') := by
    intro conv m
    obtain ⟨n, m', h, -⟩ := unifyConventions_ok conv m
    exact ⟨m', by simp only [apply_bind, h, apply_pure]⟩
  cases hconv : c.uniformConv with
  | none =>
      simp only [finish, hconv, apply_bind, apply_change]
      split_ifs
      · exact ⟨_, rfl⟩
      · exact ⟨_, rfl⟩
  | some conv =>
      simp only [finish, hconv, apply_bind _ _ m, apply_change]
      split_ifs
      · exact hunify conv _
      · exact hunify conv _

theorem nodup_withRole (m : Module) (mode : KernelMode) (role : Role) :
    (m.withRole mode role).Nodup :=
  (List.filter_sublist.map _).nodup m.funcs.nodup_ids

theorem contains_of_mem_withRole {m : Module} {mode : KernelMode} {role : Role} {id : FuncId}
    (h : id ∈ m.withRole mode role) : m.funcs.contains id = true := by
  obtain ⟨e, he, rfl⟩ := List.mem_map.1 h
  exact Arena.contains_iff.2 ⟨e.2, Arena.mem_entries_iff.1 (List.mem_filter.1 he).1⟩

/-- The stages after the preparation look up handles of the prepared module. -/
theorem outcome_afterPreparation (c : Config) (d : Demangler) (mode : KernelMode)
    (preparation : Option PreparationCounts) (prepared : Module) :
    Outcome (· = prepared) (do
      let counts ← definitionsStage d mode preparation prepared
      let boundDeclarations ← bindDeclarations (prepared.withRole mode .declaration)
      finish c
      return { counts with boundDeclarations }) (fun _ _ => True) fun e _ => e.isReport = true := by
  have hdefinitions : Spares {id | prepared.funcs.contains id = true}
      (definitionsStage d mode preparation prepared) := by
    refine Outcome.bind (R := fun _ => Module.Alive {id | prepared.funcs.contains id = true})
      (Spares.foldlM (fun id hid counts => spares_decorateKernel d counts
        (contains_of_mem_withRole hid)) _) fun counts => ?_
    exact Outcome.bind (R := fun _ => Module.Alive {id | prepared.funcs.contains id = true})
      (succeeds_nameDeviceFunctions _ fun id hid => contains_of_mem_withRole hid).spares
        fun _ => Spares.pure _
  refine (hdefinitions.conseq (fun m (heq : m = prepared) _ h => heq ▸ h) fun _ _ h => h).bind
    fun counts => ?_
  refine ((outcome_bindDeclarations _ (nodup_withRole _ _ _)).conseq (fun m hm id hid =>
    hm id (contains_of_mem_withRole hid)) fun _ _ h => h).bind fun bound => ?_
  refine Outcome.bind (R := fun _ _ => True) (fun m _ => ?_) fun _ =>
    Outcome.pure fun _ _ => trivial
  obtain ⟨m', h⟩ := finish_ok c m
  rw [h]
  trivial

/-- What follows the walk through wrappers fails with reports only. -/
theorem outcome_afterUnwrapping (flow : Flow) (afterO3 : Bool) (d : Demangler) (unwrapped : Nat) :
    Outcome (fun _ => True) (do
      let hidden ← change Module.hideSymbols
      let expanded ← expandMemCalls
      let uncast ← dropCallCasts
      let folded ← prepareFlow flow afterO3 d
      return ({ unwrapped, hidden, expanded, uncast, folded } : PreparationCounts))
      (fun _ _ => True) fun e _ => e.isReport = true := by
  refine Outcome.bind spares_hideSymbols.outcome fun hidden => ?_
  refine Outcome.bind spares_expandMemCalls.outcome fun expanded => ?_
  refine Outcome.bind spares_dropCallCasts.outcome fun uncast => ?_
  exact Outcome.bind (outcome_prepareFlow flow afterO3 d) fun _ => Outcome.pure fun _ _ => trivial

theorem outcome_prepareStage (c : Config) (flow : Flow) (d : Demangler) (steps : Nat) (m : Module) :
    Outcome (· = m) (prepareStage c flow d steps) (fun _ _ => True) fun e m' =>
      e.isReport = true ∨ e = .outOfSteps ∧ c.runPreparation = true ∧
        (unwrapWrappers flow.kernelMode steps).apply m = (.error .outOfSteps, m') := by
  rw [prepareStage]
  split
  · next hrun =>
      have hunwrap : Outcome (· = m) (unwrapWrappers flow.kernelMode steps) (fun _ _ => True)
          fun e m' => e.isReport = true ∨ e = .outOfSteps ∧ c.runPreparation = true ∧
            (unwrapWrappers flow.kernelMode steps).apply m = (.error .outOfSteps, m') := by
        intro m₁ heq
        subst heq
        cases h : (unwrapWrappers flow.kernelMode steps).apply m₁ with
        | mk r m' =>
            cases r with
            | ok n => trivial
            | error e =>
                have hnone : Module.Alive ∅ m₁ := fun _ hid => hid.elim
                refine ((outcome_unwrapWrappers _ _).of_error hnone h).imp_right ?_
                rintro rfl
                exact ⟨rfl, hrun, rfl⟩
      refine Outcome.bind (R := fun _ _ => True) (hunwrap.bind fun unwrapped =>
        (outcome_afterUnwrapping flow c.afterO3 d unwrapped).weaken fun _ _ => Or.inl) fun _ => ?_
      exact Outcome.pure fun _ _ => trivial
  · exact Outcome.pure fun _ _ => trivial

/-- Whatever the module, a run ends with an answer or with a report, or its walk through wrappers
uses up the steps that it has.  It never looks up a function that is gone or copies a label that is
not there; nor does setting a convention, which looks up the callers of a function. -/
theorem run_uses_live_handles (c : Config) (d : Demangler) (steps : Nat) (m : Module) :
    ((∃ counts m', (run c d steps).apply m = (.ok counts, m')) ∨
      (∃ e m', (run c d steps).apply m = (.error e, m') ∧ e.isReport = true) ∨
        ∃ m', c.runPreparation = true ∧
          (unwrapWrappers (c.flowFor m).kernelMode steps).apply m = (.error .outOfSteps, m') ∧
            (run c d steps).apply m = (.error .outOfSteps, m')) ∧
      ∀ (m₁ : Module) id, ∀ site ∈ m₁.callSites id, m₁.funcs.contains site.caller = true := by
  refine ⟨?_, fun m₁ id site => Module.contains_of_mem_callSites⟩
  have hrun : Outcome (· = m) (run c d steps) (fun _ _ => True) fun e m' =>
      e.isReport = true ∨ e = .outOfSteps ∧ c.runPreparation = true ∧
        (unwrapWrappers (c.flowFor m).kernelMode steps).apply m = (.error .outOfSteps, m') := by
    rw [run_eq_stages]
    refine Outcome.get_bind fun m₁ heq => ?_
    subst heq
    refine (outcome_prepareStage c _ d steps m₁).bind fun preparation => ?_
    refine Outcome.get_bind fun prepared _ => ?_
    exact (outcome_afterPreparation c d _ preparation prepared).weaken fun _ _ => Or.inl
  cases h : (run c d steps).apply m with
  | mk r m' =>
      cases r with
      | ok counts => exact Or.inl ⟨counts, m', rfl⟩
      | error e =>
          rcases hrun.of_error rfl h with he | ⟨rfl, hc, hunwrap⟩
          · exact Or.inr (Or.inl ⟨e, m', rfl, he⟩)
          · exact Or.inr (Or.inr ⟨m', hc, hunwrap, rfl⟩)

end Pipeline

end KernelIR
