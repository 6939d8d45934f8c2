import KernelIR.Module.Verify
import KernelIR.Proofs.Dominance
import Mathlib

/-!
# What verification checks

A module is verified when its symbols are distinct, its bodies are in single-assignment form, and
its instructions hold live handles.  The handles that end a block and those in the initializers of
globals are not looked at.
-/

namespace KernelIR

theorem Callee.resolve?_eq_some_iff {callee : Callee} {id : FuncId} :
    callee.resolve? = some id ↔ callee.target = .func id := by
  cases callee with
  | direct f | cast f => simp [resolve?, target]
  | indirect op => cases op <;> simp [resolve?, target]

theorem Instr.call?_eq_some_iff {i : Instr} {c : Call} : i.call? = some c ↔ i = .call c := by
  cases i <;> simp [call?]

/-- All operands that an instruction holds, the target of a call first. -/
def Instr.mentions : Instr → List Operand
  | .call c => c.callee.target :: c.args
  | i => i.operands

def Block.mentions (b : Block) : List Operand :=
  b.instrs.flatMap Instr.mentions ++ b.terminator.operands

def Func.mentions (f : Func) : List Operand := f.body.values.flatMap Block.mentions

namespace Module

/-- All operands of the module, the functions that initializers list included. -/
def mentions (m : Module) : List Operand :=
  m.funcs.values.flatMap Func.mentions ++
    m.globals.values.flatMap fun g => g.listed.map Operand.func

/-- An operand that is no handle, or a live one. -/
def Live (m : Module) : Operand → Prop
  | .func id => m.funcs.contains id = true
  | .global id => m.globals.contains id = true
  | _ => True

instance (m : Module) : DecidablePred m.Live := fun op => by
  cases op <;> unfold Live <;> infer_instance

/-- What terminators and initializers hold is live. -/
structure EndsLive (m : Module) : Prop where
  terminators : ∀ f ∈ m.funcs.values, ∀ b ∈ f.body.values, ∀ op ∈ b.terminator.operands, m.Live op
  initializers : ∀ g ∈ m.globals.values, ∀ id ∈ g.listed, m.Live (.func id)

theorem live_of_mem_operands {m : Module} {i : Instr} (h : ∀ op ∈ i.mentions, m.Live op) :
    ∀ op ∈ i.operands, m.Live op := by
  cases i with
  | call c =>
      intro op hop
      rcases List.mem_append.1 hop with hop | hop
      · cases hc : c.callee with
        | indirect target =>
            rw [hc, Callee.operands, List.mem_singleton] at hop
            exact h op (by simp [Instr.mentions, hc, Callee.target, hop])
        | _ => simp [hc, Callee.operands] at hop
      · exact h op (List.mem_cons_of_mem _ hop)
  | _ => exact h

theorem handleFault?_eq_none_iff {m : Module} {function : String} {op : Operand} :
    m.handleFault? function op = none ↔ m.Live op := by
  cases op <;> simp [handleFault?, Live]

theorem instrFault?_eq_none_iff {m : Module} {function : String} {i : Instr} :
    m.instrFault? function i = none ↔ ∀ op ∈ i.mentions, m.Live op := by
  have hoperands : i.operands.findSome? (m.handleFault? function) = none ↔
      ∀ op ∈ i.operands, m.Live op := by
    simp [List.findSome?_eq_none_iff, handleFault?_eq_none_iff]
  rw [instrFault?, Option.or_eq_none_iff, hoperands]
  constructor
  · rintro ⟨htarget, h⟩
    cases i with
    | call c =>
        refine List.forall_mem_cons.2 ⟨?_, fun op hop => h op (List.mem_append_right _ hop)⟩
        cases hres : c.callee.resolve? with
        | some id =>
            rw [Callee.resolve?_eq_some_iff.1 hres]
            exact handleFault?_eq_none_iff.1 (by simpa [Instr.call?, hres] using htarget)
        | none =>
            cases hc : c.callee with
            | indirect op => exact h op (by simp [Instr.operands, hc, Callee.operands])
            | _ => simp [hc, Callee.resolve?] at hres
    | _ => exact h
  · intro h
    refine ⟨?_, live_of_mem_operands h⟩
    rw [Option.bind_eq_none_iff]
    intro id hid
    obtain ⟨c, hc, hid⟩ := Option.bind_eq_some_iff.1 hid
    obtain rfl := Instr.call?_eq_some_iff.1 hc
    have htarget := Callee.resolve?_eq_some_iff.1 hid
    exact handleFault?_eq_none_iff.2 (htarget ▸ h _ List.mem_cons_self)

end Module

namespace Func

theorem mem_instrs_of_mem {f : Func} {b : Block} {i : Instr} (hb : b ∈ f.body.values)
    (hi : i ∈ b.instrs) : ∃ e ∈ f.instrs, e.2 = i := by
  obtain ⟨⟨l, b⟩, he, rfl⟩ := List.mem_map.1 hb
  obtain ⟨n, hn⟩ := List.mem_iff_getElem?.1 hi
  exact ⟨(⟨l, n⟩, i), mem_instrs_iff.2 ⟨b, find?_of_mem_entries he, hn⟩, rfl⟩

/-- The check finds a fault exactly if the body is not in single-assignment form. -/
theorem checkSSA_eq_ok_iff {f : Func} : f.checkSSA = .ok () ↔ f.Checked := by
  refine ⟨Checked.of_checkSSA, fun h => ?_⟩
  suffices hfault : f.ssaFault? = none by simp [checkSSA, hfault]
  rw [ssaFault?]
  split_ifs with hdecl hentry
  · rfl
  · rw [h.entry (by simpa using hdecl)] at hentry
    exact absurd hentry (by decide)
  · rw [Option.or_eq_none_iff, Option.map_eq_none_iff, firstRepeat?_eq_none_iff,
      List.findSome?_eq_none_iff]
    refine ⟨h.nodup, fun b hb => ?_⟩
    obtain ⟨⟨l, b⟩, he, rfl⟩ := List.mem_map.1 hb
    have hfind := find?_of_mem_entries he
    rw [blockFault?, Option.or_eq_none_iff, List.findSome?_eq_none_iff,
      List.findSome?_eq_none_iff]
    refine ⟨h.reads l b hfind, fun k hk => ?_⟩
    simp [labelFault?, h.labels l b hfind k hk]

end Func

namespace Module

theorem fault?_eq_none_iff {m : Module} :
    m.fault? = none ↔ m.symbols.Nodup ∧ (∀ f ∈ m.funcs.values, f.checkSSA = .ok ()) ∧
      ∀ f ∈ m.funcs.values, ∀ b ∈ f.body.values, ∀ i ∈ b.instrs, ∀ op ∈ i.mentions, m.Live op := by
  rw [fault?, Option.or_eq_none_iff, Option.map_eq_none_iff, firstRepeat?_eq_none_iff,
    List.findSome?_eq_none_iff, ← forall₂_and]
  refine and_congr_right fun _ => forall₂_congr fun f _ => ?_
  rw [funcFault?, Option.or_eq_none_iff, List.findSome?_eq_none_iff]
  refine and_congr ?_ ?_
  · cases h : f.ssaFault? <;> simp [Func.checkSSA, h]
  · constructor
    · intro h b hb i hi
      obtain ⟨e, he, rfl⟩ := Func.mem_instrs_of_mem hb hi
      exact instrFault?_eq_none_iff.1 (h e he)
    · rintro h ⟨pos, i⟩ he
      obtain ⟨b, hb, hi⟩ := Func.mem_instrs_iff.1 he
      exact instrFault?_eq_none_iff.2
        (h b (List.mem_map_of_mem (OrderedMap.mem_entries_iff.2 hb)) i (List.mem_of_getElem? hi))

theorem verify_eq_ok_iff_fault? {m : Module} : m.verify = .ok () ↔ m.fault? = none := by
  cases h : m.fault? <;> simp [verify, h]

/-- All handles of a module are live if those are that verification looks at, and those that it
passes over. -/
theorem forall_mentions_iff {m : Module} :
    (∀ op ∈ m.mentions, m.Live op) ↔
      (∀ f ∈ m.funcs.values, ∀ b ∈ f.body.values, ∀ i ∈ b.instrs, ∀ op ∈ i.mentions, m.Live op) ∧
        m.EndsLive := by
  simp only [mentions, Func.mentions, Block.mentions, List.mem_append, List.mem_flatMap,
    List.mem_map]
  constructor
  · intro h
    refine ⟨fun f hf b hb i hi op hop => ?_, fun f hf b hb op hop => ?_, fun g hg id hid => ?_⟩
    · exact h op (Or.inl ⟨f, hf, b, hb, Or.inl ⟨i, hi, hop⟩⟩)
    · exact h op (Or.inl ⟨f, hf, b, hb, Or.inr hop⟩)
    · exact h _ (Or.inr ⟨g, hg, id, hid, rfl⟩)
  · rintro ⟨hinstrs, hends⟩ op (⟨f, hf, b, hb, ⟨i, hi, hop⟩ | hop⟩ | ⟨g, hg, id, hid, rfl⟩)
    · exact hinstrs f hf b hb i hi op hop
    · exact hends.terminators f hf b hb op hop
    · exact hends.initializers g hg id hid

/-- Verification succeeds if the symbols are distinct, all bodies are in single-assignment form,
and the handles of the instructions are live.  When those of terminators and initializers are live
too, it decides whether all handles of the module are. -/
theorem verify_eq_ok_iff {m : Module} :
    (m.verify = .ok () ↔ m.symbols.Nodup ∧ (∀ f ∈ m.funcs.values, f.checkSSA = .ok ()) ∧
      ∀ f ∈ m.funcs.values, ∀ b ∈ f.body.values, ∀ i ∈ b.instrs, ∀ op ∈ i.mentions, m.Live op) ∧
    (m.EndsLive → (m.verify = .ok () ↔ m.symbols.Nodup ∧
      (∀ f ∈ m.funcs.values, f.checkSSA = .ok ()) ∧ ∀ op ∈ m.mentions, m.Live op)) := by
  rw [verify_eq_ok_iff_fault?, fault?_eq_none_iff]
  refine ⟨Iff.rfl, fun hends => ?_⟩
  rw [forall_mentions_iff, and_iff_left hends]

/-- A function that returns the address of a function that is not there. -/
def deadReturn : Module where
  funcs := .ofList [{
    name := "f", params := [], retTy := .privatePtr
    body := .ofList [(.entry, ⟨[], .ret (some (.func ⟨2, 1⟩))⟩)] }]

theorem deadReturn_verify : ¬(deadReturn.verify = .ok () ↔ deadReturn.symbols.Nodup ∧
    (∀ f ∈ deadReturn.funcs.values, f.checkSSA = .ok ()) ∧
      ∀ op ∈ deadReturn.mentions, deadReturn.Live op) := by
  decide +kernel

end Module

end KernelIR
