import KernelIR.Proofs.Conventions
import KernelIR.Proofs.Edges
import KernelIR.Proofs.Naming.Steps
import KernelIR.Proofs.WellFormed.Builtin
import KernelIR.Proofs.Wrapper.Walk
import Mathlib

/-!
# Reports

An edit of a function that is there fails with a report of what is wrong with the module.  A copy of
a body finds all labels that it needs, as the body is checked before it is copied.
-/

namespace KernelIR

/-- A failure that says what is wrong with the module.  The others are none: a handle or a label
that is not there was looked up, or the steps of the walk through wrappers or the words were used
up. -/
def Failure.isReport : Failure → Bool
  | deadHandle _ | missingLabel _ | outOfSteps | overflow => false
  | _ => true

theorem isReport_of_map {α β : Type} {x : Except Failure α} {g : α → β} {e : Failure}
    (hx : ∀ e, x = .error e → e.isReport = true) (h : x.map g = .error e) : e.isReport = true := by
  cases x with
  | error e' =>
      cases h
      exact hx _ rfl
  | ok a => cases h

theorem isReport_of_lift {α : Type} {x : Except IRError α} {e : Failure}
    (h : IRError.lift x = .error e) : e.isReport = true := by
  cases x with
  | error e' =>
      cases h
      rfl
  | ok a => cases h

namespace Inline

/-- A body in single-assignment form has the labels that its copy needs. -/
theorem labels_of_checked {callee : Func} (h : callee.Checked)
    (hdef : callee.isDeclaration = false) :
    ∀ l ∈ Label.entry :: callee.mentionedLabels, callee.body.contains l = true := by
  intro l hl
  rcases List.mem_cons.1 hl with rfl | hl
  · exact h.entry hdef
  · obtain ⟨b, hb, hl⟩ := List.mem_flatMap.1 hl
    obtain ⟨⟨k, b⟩, he, rfl⟩ := List.mem_map.1 hb
    exact h.labels k b (Func.find?_of_mem_entries he) l hl

theorem isReport_of_target {m : Module} {site : CallSite} {e : Failure}
    (h : target m site = .error e) : e.isReport = true := by
  rw [target] at h
  split at h
  · cases h
    rfl
  · split at h
    · cases h
      rfl
    · split at h
      · cases h
        rfl
      · split_ifs at h
        · cases h
          rfl
        · split at h
          · cases h
            rfl
          · next callee _ =>
              split_ifs at h with hdecl
              · cases h
                rfl
              · cases h
                rfl
              · split at h
                · cases h
                  rfl
                · next hssa =>
                    split at h
                    · next l hfind =>
                        have hl := labels_of_checked (.of_checkSSA hssa) (by simpa using hdecl) l
                          (List.mem_of_find?_eq_some hfind)
                        have hmissing := List.find?_some hfind
                        simp [hl] at hmissing
                    · cases h

end Inline

theorem MangledName.isReport_of_normalize {name : String} {e : Failure}
    (h : normalize name = .error e) : e.isReport = true := by
  have hstrip : ∀ {stem name e}, strip stem name = .error e → e.isReport = true := by
    intro stem name e h
    rw [strip] at h
    split at h
    · cases h
    · dsimp only at h
      split_ifs at h
      cases h
      rfl
  rw [normalize] at h
  generalize builtinStems = stems at h
  induction stems generalizing name with
  | nil => cases h
  | cons stem stems ih =>
      rw [List.foldlM_cons] at h
      cases hs : strip stem name with
      | error e' =>
          rw [hs] at h
          cases h
          exact hstrip hs
      | ok r =>
          rw [hs] at h
          exact ih h

namespace Module

variable {m m' : Module} {e : Failure} {id : FuncId} {site : CallSite}

theorem isReport_of_inlineAt (h : m.inlineAt site = .error e) : e.isReport = true := by
  rw [inlineAt] at h
  split at h
  · next htarget =>
      cases h
      exact Inline.isReport_of_target htarget
  · split at h
    · cases h
      rfl
    · cases h

@[simp] theorem contains_modifyFunc (m : Module) (id id' : FuncId) (g : Func → Func) :
    (m.modifyFunc id g).funcs.contains id' = m.funcs.contains id' := by
  by_cases hid : id' = id
  · subst hid
    simp [modifyFunc, Arena.contains]
  · simp [modifyFunc, Arena.contains, Arena.get?_modify_of_ne _ hid]

@[simp] theorem contains_setFunc (m : Module) (id id' : FuncId) (f : Func) :
    (m.setFunc id f).funcs.contains id' = m.funcs.contains id' :=
  m.contains_modifyFunc id id' _

@[simp] theorem contains_mapFuncs (m : Module) (id : FuncId) (g : Func → Func) :
    (m.mapFuncs g).funcs.contains id = m.funcs.contains id := by
  simp [mapFuncs, Arena.contains]

theorem isReport_of_expandMemCall {kind : MemIntrinsic}
    (hlive : m.funcs.contains site.caller = true) (h : m.expandMemCall site kind = .error e) :
    e.isReport = true := by
  obtain ⟨f, hf⟩ := Arena.contains_iff.1 hlive
  simp only [expandMemCall, hf] at h
  split at h
  · cases h
    rfl
  · split at h
    · cases h
      rfl
    · split at h
      · cases h
        rfl
      · cases h

theorem isReport_of_attachWorkGroupSize {d : Demangler} (hid : m.funcs.contains id = true)
    (h : m.attachWorkGroupSize id d = .error e) : e.isReport = true := by
  obtain ⟨f, hf⟩ := Arena.contains_iff.1 hid
  simp only [attachWorkGroupSize, hf] at h
  split at h
  · next hsize =>
      cases h
      rw [WorkGroupSize.ofDemangled] at hsize
      split at hsize
      · cases hsize
      · split at hsize
        · cases hsize
        · cases hsize
          rfl
  · cases h
  · cases h

theorem isReport_of_setKernelName (hid : m.funcs.contains id = true)
    (h : m.setKernelName id = .error e) : e.isReport = true := by
  obtain ⟨f, hf⟩ := Arena.contains_iff.1 hid
  simp only [setKernelName, hf] at h
  split_ifs at h
  split at h
  · next hlength =>
      cases h
      rw [KernelName.checkLength] at hlength
      split_ifs at hlength
      cases hlength
      rfl
  · split at h
    · cases h
      rfl
    · cases h

theorem isReport_of_bindDeclaration (hid : m.funcs.contains id = true)
    (h : m.bindDeclaration id = .error e) : e.isReport = true := by
  obtain ⟨f, hf⟩ := Arena.contains_iff.1 hid
  simp only [bindDeclaration, hf] at h
  split at h
  · next hname =>
      cases h
      exact MangledName.isReport_of_normalize hname
  · split_ifs at h
    · cases h
      rfl
    · split at h
      · split at h
        · cases h
          rfl
        · cases h
      · next new hnew =>
          obtain ⟨g, hg, -⟩ := findFunc?_eq_some hnew
          simp only [hg] at h
          split_ifs at h
          · split at h
            · cases h
              rfl
            · cases h
          · cases h
            rfl

theorem Redefined.contains_eq {f g : Func} (h : m.Redefined id f g m') (id' : FuncId) :
    m'.funcs.contains id' = m.funcs.contains id' :=
  h.updated.contains_iff h.before id'

/-- A declaration that is merged is the only function that goes. -/
theorem Binds.contains_eq (h : Binds m id m') {id' : FuncId} (hne : id' ≠ id) :
    m'.funcs.contains id' = m.funcs.contains id' := by
  cases h with
  | keep hf hname => rfl
  | rename hf hname hne hr =>
      obtain ⟨f, hr⟩ := renameFunc_redefined hr
      exact hr.contains_eq id'
  | merge hf hname hne' hg hprototype hr =>
      simp [Arena.contains, (replaced_of_replaceFunc hr).other id' hne]

/-- Every site that is listed is in a function that is there. -/
theorem contains_of_mem_callSites (h : site ∈ m.callSites id) :
    m.funcs.contains site.caller = true := by
  obtain ⟨f, -, hf, -⟩ := mem_callSites h
  exact Arena.contains_iff.2 ⟨f, hf⟩

theorem contains_of_mem_callers {caller kernel : FuncId}
    (h : caller ∈ (CallGraph.ofModule m).callers kernel) : m.funcs.contains caller = true := by
  obtain ⟨e, he, rfl⟩ := List.mem_map.1 (List.mem_eraseDups.1 h)
  obtain ⟨⟨caller, f⟩, hf, he⟩ := List.mem_flatMap.1 (List.mem_filter.1 he).1
  obtain ⟨-, -, rfl⟩ := List.mem_map.1 he
  exact Arena.contains_iff.2 ⟨f, Arena.mem_entries_iff.1 hf⟩

/-- The handles of `ids` are live. -/
def Alive (ids : Set FuncId) (m : Module) : Prop := ∀ id ∈ ids, m.funcs.contains id = true

theorem Alive.congr {ids : Set FuncId} (h : m.Alive ids)
    (hcontains : ∀ id, m'.funcs.contains id = m.funcs.contains id) : m'.Alive ids :=
  fun id hid => (hcontains id).trans (h id hid)

end Module

end KernelIR
