import KernelIR.Proofs.Handles.Reports
import KernelIR.Proofs.Naming.Rerun
import KernelIR.Proofs.Outcome
import KernelIR.Proofs.WellFormed.Casts
import Mathlib

/-!
# Naming device functions does not fail

Of more names than there are symbols one is free, a cast that is found can be removed, and the
functions to name are live.
-/

namespace KernelIR

open ModuleM

namespace Module

variable {m : Module} {name : String}

theorem mem_symbols_iff : name ∈ m.symbols ↔
    (∃ id f, m.funcs.get? id = some f ∧ f.name = name) ∨
      ∃ id g, m.globals.get? id = some g ∧ g.name = name := by
  simp only [symbols, List.mem_append, List.mem_map, Arena.mem_values_iff]
  grind

theorem isTaken_iff : m.isTaken name = true ↔ name ∈ m.symbols := by
  rw [← Bool.not_eq_false, ← not_iff_comm, isTaken_eq_false_iff, mem_symbols_iff]
  grind

theorem exists_renameFunc {id : FuncId} {f : Func} (hf : m.funcs.get? id = some f)
    (hname : f.name = name ∨ name ∉ m.symbols) : ∃ m', m.renameFunc id name = .ok m' := by
  rw [renameFunc, hf]
  dsimp only
  by_cases heq : f.name = name
  · exact ⟨m, if_pos heq⟩
  · have htaken : ¬m.isTaken name = true := mt isTaken_iff.1 (hname.resolve_left heq)
    rw [if_neg heq, if_neg htaken]
    exact ⟨_, rfl⟩

end Module

namespace DeviceNamer

theorem name_injective : Function.Injective name := append_repr_injective "sycl_func_"

/-- The names from the counter on are different, so that not all of them are those of symbols. -/
theorem exists_free (n : DeviceNamer) (m : Module) (f : Func) :
    ∃ k ∈ List.range (m.symbols.length + 1), isFree m f (name (n.counter + k)) = true := by
  by_contra hnone
  have hnodup : ((List.range (m.symbols.length + 1)).map fun k => name (n.counter + k)).Nodup :=
    List.nodup_range.map fun k k' h => Nat.add_left_cancel (name_injective h)
  have hsub : ((List.range (m.symbols.length + 1)).map fun k => name (n.counter + k)) ⊆
      m.symbols := by
    intro s hs
    obtain ⟨k, hk, rfl⟩ := List.mem_map.1 hs
    refine Module.isTaken_iff.1 ?_
    by_contra hfree
    exact hnone ⟨k, hk, by simp [isFree, hfree]⟩
  have hle := (List.Nodup.subperm hnodup hsub).length_le
  simp at hle

/-- The search within the bound finds a number. -/
theorem exists_number (n : DeviceNamer) (m : Module) (f : Func) : ∃ i,
    ((List.range (m.symbols.length + 1)).find? fun k => isFree m f (name (n.counter + k))) =
      some i ∧ n.number m f = n.counter + i := by
  obtain ⟨k, hk, hfree⟩ := n.exists_free m f
  obtain ⟨i, hi⟩ := Option.isSome_iff_exists.1
    (List.find?_isSome (p := fun k => isFree m f (name (n.counter + k))).2 ⟨k, hk, hfree⟩)
  refine ⟨i, hi, ?_⟩
  rw [number, hi]
  rfl

theorem isFree_iff {m : Module} {f : Func} {s : String} :
    isFree m f s = true ↔ f.name = s ∨ s ∉ m.symbols := by
  rw [isFree, Bool.or_eq_true, beq_iff_eq, Bool.not_eq_true', ← Bool.not_eq_true,
    Module.isTaken_iff]

theorem isFree_number (n : DeviceNamer) (m : Module) (f : Func) :
    isFree m f (name (n.number m f)) = true := by
  obtain ⟨i, hi, hnumber⟩ := n.exists_number m f
  rw [hnumber]
  exact List.find?_some (p := fun k => isFree m f (name (n.counter + k))) hi

section Apply

variable {m : Module} {id : FuncId} {f : Func} {n : DeviceNamer}

theorem next_apply (hf : m.funcs.get? id = some f) : (n.next id).apply m =
    (.ok (name (n.number m f), ⟨n.number m f + 1⟩), m) := by
  rw [next, apply_bind_of_ok (apply_func_of_some hf)]
  rfl

/-- A function that is there is renamed. -/
theorem rename_apply (hf : m.funcs.get? id = some f) : ∃ m',
    m.renameFunc id (name (n.number m f)) = .ok m' ∧
      (n.rename id).apply m = (.ok (name (n.number m f), ⟨n.number m f + 1⟩), m') := by
  obtain ⟨m', hm'⟩ := Module.exists_renameFunc hf (isFree_iff.1 (n.isFree_number m f))
  refine ⟨m', hm', ?_⟩
  rw [rename, apply_bind_of_ok (next_apply hf)]
  dsimp only
  rw [apply_bind, apply_edit, hm']
  rfl

end Apply

end DeviceNamer

namespace ModuleM

/-- The action succeeds where the functions of `ids` are live, and keeps them. -/
abbrev Succeeds {α : Type} (ids : Set FuncId) (x : ModuleM α) : Prop :=
  Outcome (Module.Alive ids) x (fun _ => Module.Alive ids) fun _ _ => False

variable {ids : Set FuncId} {id : FuncId}

theorem succeeds_rename (n : DeviceNamer) (hid : id ∈ ids) : Succeeds ids (n.rename id) := by
  intro m hm
  obtain ⟨f, hf⟩ := Arena.contains_iff.1 (hm id hid)
  obtain ⟨m', hm', happly⟩ := DeviceNamer.rename_apply (n := n) hf
  obtain ⟨f', hr⟩ := Module.renameFunc_redefined hm'
  rw [happly]
  exact hm.congr hr.contains_eq

theorem succeeds_nameParams (hid : id ∈ ids) : Succeeds ids (Pipeline.nameParams id) :=
  Outcome.func_bind (fun _ hm => hm id hid) fun m _ hm _ =>
    Outcome.change fun _ heq => heq ▸ hm.congr fun _ => m.contains_setFunc _ _ _

theorem succeeds_collapseCast (hid : id ∈ ids) (r : Reg) : Succeeds ids (collapseCast id r) := by
  refine Outcome.func_bind (fun _ hm => hm id hid) fun m f hm _ => ?_
  split
  · exact Outcome.pure fun _ heq => heq ▸ hm
  · next hdef =>
      obtain ⟨-, b, hb, hi⟩ := Func.findDef?_eq_some hdef
      obtain ⟨g, hremove⟩ := Func.exists_removeInstr hb hi
      split
      · next herror =>
          rw [hremove] at herror
          cases herror
      · exact Outcome.change fun _ heq => heq ▸ hm.congr fun _ => m.contains_setFunc _ _ _
      · exact Outcome.change fun _ heq => heq ▸ hm.congr fun _ => m.contains_setFunc _ _ _

theorem succeeds_collapseGenericCasts (hid : id ∈ ids) :
    Succeeds ids (collapseGenericCasts id) := by
  refine Outcome.get_bind fun m hm => ?_
  split
  · exact Outcome.pure fun _ heq => heq ▸ hm
  · refine Outcome.func_bind (fun _ heq => heq ▸ hm id hid) fun m₁ f heq _ => ?_
    subst heq
    exact (Outcome.sumOver (I := fun _ _ => Module.Alive ids)
      (fun r _ _ => succeeds_collapseCast hid r) _).conseq (fun _ heq => heq ▸ hm) fun _ _ h => h

theorem succeeds_nameDeviceFunction (state : DeviceNamer × PipelineCounts) (hid : id ∈ ids) :
    Succeeds ids (Pipeline.nameDeviceFunction state id) :=
  (succeeds_rename state.1 hid).bind fun _ => (succeeds_nameParams hid).bind fun _ =>
    (succeeds_collapseGenericCasts hid).bind fun _ => Outcome.pure fun _ hm => hm

/-- The functions of the list are named one after the other. -/
theorem succeeds_nameDeviceFunctions (state : DeviceNamer × PipelineCounts) {list : List FuncId}
    (hlist : ∀ id ∈ list, id ∈ ids) :
    Succeeds ids (list.foldlM Pipeline.nameDeviceFunction state) := by
  induction list generalizing state with
  | nil => exact Outcome.pure fun _ hm => hm
  | cons id list ih =>
      obtain ⟨hid, hlist⟩ := List.forall_mem_cons.1 hlist
      rw [List.foldlM_cons]
      exact (succeeds_nameDeviceFunction state hid).bind fun state' => ih state' hlist

end ModuleM

end KernelIR
