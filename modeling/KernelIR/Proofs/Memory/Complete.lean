import KernelIR.Proofs.Outcome
import KernelIR.Proofs.WellFormed.Preparation
import Mathlib

/-!
# All memory intrinsics are expanded

The expansion of memory intrinsics fails exactly if one of their calls has too few arguments.  If it
succeeds, none of their calls is left, all other calls are, and nothing but bodies has changed.  A
round of the loop over a function takes one call away, so that as many rounds as there are calls
are enough.
-/

namespace KernelIR

namespace MemIntrinsic

end MemIntrinsic

namespace Module

variable {m m' : Module} {id : FuncId} {f f' : Func} {call : Call} {pos : Position}
  {kind : MemIntrinsic}

/-- Every call to a memory intrinsic has the arguments that the intrinsic takes. -/
def Supports (m : Module) (f : Func) : Prop :=
  ∀ call, f.HasCall call → (m.memIntrinsic? call).isSome = true → 3 ≤ call.args.length

/-- The failure reports a call to a memory intrinsic that has too few arguments. -/
def Rejects (m : Module) (f : Func) (e : Failure) : Prop :=
  ∃ call, f.HasCall call ∧ (m.memIntrinsic? call).isSome = true ∧ call.args.length < 3 ∧
    e = .unsupported (m.calleeName call) f.name

/-- `f'` is `f` with other code in the place of its calls to memory intrinsics. -/
structure Expanded (m : Module) (f f' : Func) : Prop where
  header : f' = { f with body := f'.body }
  calls : (f'.calls.map (·.2)).Perm ((f.calls.map (·.2)).filter fun c => (m.memIntrinsic? c).isNone)
  checked : f.checkSSA = .ok () →
    (∀ c, f.HasCall c → (m.memIntrinsic? c).isSome = true → c.dest = none) → f'.checkSSA = .ok ()

section Names

/-! What an intrinsic is called by is a matter of names. -/

theorem calleeName_congr
    (hname : ∀ id, (m'.funcs.get? id).map (·.name) = (m.funcs.get? id).map (·.name))
    (call : Call) : m'.calleeName call = m.calleeName call := by
  have hcallee : ∀ m : Module, m.calleeName call =
      ((call.callee.resolve?.bind m.funcs.get?).map (·.name)).getD "" := fun m => by
    rw [calleeName]
    split
    · next h => rw [h]; rfl
    · next h => rw [h]; rfl
  rw [hcallee, hcallee]
  cases call.callee.resolve? with
  | none => rfl
  | some id => rw [Option.bind_some, Option.bind_some, hname id]

theorem Rejects.congr {e : Failure}
    (hname : ∀ id, (m'.funcs.get? id).map (·.name) = (m.funcs.get? id).map (·.name))
    (h : m'.Rejects f e) : m.Rejects f e := by
  obtain ⟨call, hcall, hmem, hargs, rfl⟩ := h
  rw [memIntrinsic?_congr hname rfl] at hmem
  exact ⟨call, hcall, hmem, hargs, by rw [calleeName_congr hname]⟩

theorem Expanded.congr
    (hname : ∀ id, (m'.funcs.get? id).map (·.name) = (m.funcs.get? id).map (·.name))
    (h : m'.Expanded f f') : m.Expanded f f' := by
  have hmem : m'.memIntrinsic? = m.memIntrinsic? := funext fun c => memIntrinsic?_congr hname rfl
  refine ⟨h.header, ?_, ?_⟩
  · rw [← hmem]
    exact h.calls
  · rw [← hmem]
    exact h.checked

theorem Supports.congr
    (hname : ∀ id, (m'.funcs.get? id).map (·.name) = (m.funcs.get? id).map (·.name))
    (h : m'.Supports f) : m.Supports f := by
  have hmem : m'.memIntrinsic? = m.memIntrinsic? := funext fun c => memIntrinsic?_congr hname rfl
  rw [Supports, ← hmem]
  exact h

end Names

theorem length_memCalls (hf : m.funcs.get? id = some f) : (m.memCalls id).length =
    (f.calls.map (·.2)).countP fun c => (m.memIntrinsic? c).isSome := by
  rw [memCalls, hf]
  simp only [List.length_filterMap_eq_countP, List.countP_map, Option.isSome_map]
  rfl

/-- `f₁` is `f` with other code in the place of one call, which takes no more registers and labels
than the kind of the call says. -/
structure Replaces (f : Func) (call : Call) (kind : MemIntrinsic) (f₁ : Func) : Prop where
  header : f₁ = { f with body := f₁.body }
  calls : (f.calls.map (·.2)).Perm (call :: f₁.calls.map (·.2))
  checked : f.Checked → call.dest = none → f₁.Checked
  nextReg : f₁.nextReg ≤ f.nextReg + kind.regCount
  nextLabel : f₁.nextLabel ≤ f.nextLabel + (kind.blockCount + 1)

namespace Replaces

variable {f₁ : Func}

theorem hasCall_iff (h : Replaces f call kind f₁) {c : Call} :
    f.HasCall c ↔ c = call ∨ f₁.HasCall c := by
  rw [Func.hasCall_iff_mem_calls, Func.hasCall_iff_mem_calls, h.calls.mem_iff, List.mem_cons]

/-- The others are expanded as well. -/
theorem expanded (h : Replaces f call kind f₁) (hmem : (m.memIntrinsic? call).isSome = true)
    (h₁ : m.Expanded f₁ f') : m.Expanded f f' := by
  refine ⟨h₁.header.trans (by rw [h.header]), h₁.calls.trans ?_, fun hcheck hdest => ?_⟩
  · refine List.Perm.trans ?_ (h.calls.filter _).symm
    rw [List.filter_cons_of_neg (by simpa using Option.isSome_iff_ne_none.1 hmem)]
  · have hcall : f.HasCall call := h.hasCall_iff.2 (Or.inl rfl)
    have hchecked := h.checked (Func.Checked.of_checkSSA hcheck) (hdest call hcall hmem)
    exact h₁.checked (Func.checkSSA_eq_ok_iff.2 hchecked) fun c hc =>
      hdest c (h.hasCall_iff.2 (Or.inr hc))

end Replaces

/-- A round takes a call away and leaves all names, so that one call less is left to expand. -/
theorem Replaces.memCalls {f₁ : Func} (h : Replaces f call kind f₁) (hf : m.funcs.get? id = some f)
    (hmem : (m.memIntrinsic? call).isSome = true) :
    (∀ id', ((m.setFunc id f₁).funcs.get? id').map (·.name) = (m.funcs.get? id').map (·.name)) ∧
      (m.memCalls id).length = ((m.setFunc id f₁).memCalls id).length + 1 := by
  have hu := updated_setFunc hf f₁
  have hname := hu.names hf (by rw [h.header])
  have hcongr : (m.setFunc id f₁).memIntrinsic? = m.memIntrinsic? :=
    funext fun c => memIntrinsic?_congr hname rfl
  refine ⟨hname, ?_⟩
  rw [length_memCalls hf, length_memCalls hu.self, h.calls.countP_eq, hcongr, List.countP_cons,
    if_pos hmem]

end Module

namespace ModuleM

variable {m : Module} {id : FuncId} {f : Func}

/-- Where the functions of `xs` are as they were in `m`, all others have their calls expanded, and
`k` calls were. -/
structure ExpandsTo (m : Module) (xs : List FuncId) (k : Nat) (m' : Module) : Prop where
  nodup : xs.Nodup
  rest : m' = { m with funcs := m'.funcs }
  pending : ∀ id ∈ xs, m.funcs.contains id = true ∧ m'.funcs.get? id = m.funcs.get? id
  done : ∀ id ∉ xs, Option.Rel m.Expanded (m.funcs.get? id) (m'.funcs.get? id)
  supported : ∀ id ∉ xs, ∀ f, m.funcs.get? id = some f → m.Supports f
  count : k + (xs.map fun id => (m.memCalls id).length).sum =
    (m.funcs.ids.map fun id => (m.memCalls id).length).sum

namespace ExpandsTo

variable {xs : List FuncId} {k : Nat} {m' m'' : Module}

theorem start (m : Module) : ExpandsTo m m.funcs.ids 0 m := by
  have hnone : ∀ id ∉ m.funcs.ids, m.funcs.get? id = none := fun id hid => by
    rw [Arena.mem_ids_iff] at hid
    exact Option.not_isSome_iff_eq_none.1 hid
  refine ⟨m.funcs.nodup_ids, rfl, fun id hid => ⟨Arena.mem_ids_iff.1 hid, rfl⟩, fun id hid => ?_,
    fun id hid f hf => ?_, Nat.zero_add _⟩
  · rw [hnone id hid]
    exact .none
  · rw [hnone id hid] at hf
    cases hf

theorem names (h : ExpandsTo m xs k m') (id : FuncId) :
    (m'.funcs.get? id).map (·.name) = (m.funcs.get? id).map (·.name) := by
  by_cases hid : id ∈ xs
  · rw [(h.pending id hid).2]
  · exact map_eq_of_rel (h.done id hid) fun _ _ hexpanded => by rw [hexpanded.header]

theorem length_memCalls (h : ExpandsTo m (id :: xs) k m') :
    (m'.memCalls id).length = (m.memCalls id).length := by
  obtain ⟨hlive, hsame⟩ := h.pending id List.mem_cons_self
  obtain ⟨f, hf⟩ := Arena.contains_iff.1 hlive
  have hcongr : m'.memIntrinsic? = m.memIntrinsic? :=
    funext fun c => Module.memIntrinsic?_congr h.names rfl
  rw [Module.length_memCalls hf, Module.length_memCalls (hsame.trans hf), hcongr]

/-- One function more has its calls expanded. -/
theorem next {f' : Func} (h : ExpandsTo m (id :: xs) k m') (hf : m.funcs.get? id = some f)
    (hrest : m'' = { m' with funcs := m''.funcs }) (hu : m'.Updated id f' m'')
    (hexpanded : m.Expanded f f') (hsupports : m.Supports f) :
    ExpandsTo m xs (k + (m.memCalls id).length) m'' := by
  obtain ⟨hnot, hnodup⟩ := List.nodup_cons.1 h.nodup
  refine ⟨hnodup, ?_, fun id' hid' => ?_, fun id' hid' => ?_, fun id' hid' => ?_, ?_⟩
  · rw [hrest, h.rest]
  · have hne : id' ≠ id := fun heq => hnot (heq ▸ hid')
    obtain ⟨hlive, hsame⟩ := h.pending id' (List.mem_cons_of_mem _ hid')
    exact ⟨hlive, (hu.other id' hne).trans hsame⟩
  · by_cases heq : id' = id
    · rw [heq, hf, hu.self]
      exact .some hexpanded
    · rw [hu.other id' heq]
      exact h.done id' fun hmem => (List.mem_cons.1 hmem).elim heq hid'
  · by_cases heq : id' = id
    · intro g hg
      rw [heq, hf] at hg
      exact Option.some.inj hg ▸ hsupports
    · exact h.supported id' fun hmem => (List.mem_cons.1 hmem).elim heq hid'
  · rw [← h.count, List.map_cons, List.sum_cons, Nat.add_assoc]

end ExpandsTo

end ModuleM

end KernelIR
