import KernelIR.Builtin
import KernelIR.Proofs.Triple
import KernelIR.Proofs.WellFormed.Module
import Mathlib

/-!
# Folded builtins in well-formed modules

Calls are folded from the last to the first.  A removal moves only what stands behind it in its
block, so that the sites that are left are calls until their turn comes.
-/

namespace KernelIR

namespace Func

variable {f g : Func} {pos pos' : Position} {i : Instr} {c : Call}

/-- In a block, instructions are listed in the order of their numbers. -/
theorem pairwise_instrs (f : Func) :
    f.instrs.Pairwise fun e e' => e.1.label = e'.1.label → e.1.index < e'.1.index := by
  refine List.pairwise_flatMap.2 ⟨fun ⟨l, b⟩ _ => List.pairwise_map.2 ?_, ?_⟩
  · have hlt : b.instrs.zipIdx.Pairwise fun x y => x.2 < y.2 := by
      rw [← List.pairwise_map, List.zipIdx_map_snd]
      exact List.pairwise_lt_range' ..
    refine hlt.imp ?_
    rintro ⟨i, n⟩ ⟨i', n'⟩ h -
    exact h
  · have hkeys : f.body.entries.Pairwise fun e e' => e.1 ≠ e'.1 :=
      List.pairwise_map.1 f.body.nodup_keys
    refine hkeys.imp fun hne e he e' he' heq => ?_
    obtain ⟨_, -, rfl⟩ := List.mem_map.1 he
    obtain ⟨_, -, rfl⟩ := List.mem_map.1 he'
    exact absurd heq hne

theorem pairwise_calls (f : Func) :
    f.calls.Pairwise fun e e' => e.1.label = e'.1.label → e.1.index < e'.1.index := by
  refine List.pairwise_filterMap.2 (f.pairwise_instrs.imp fun h e he e' he' => ?_)
  obtain ⟨_, -, rfl⟩ := Option.map_eq_some_iff.1 he
  obtain ⟨_, -, rfl⟩ := Option.map_eq_some_iff.1 he'
  exact h

/-- A removal does not move calls of other blocks or calls before it. -/
theorem callAt_removeInstr (hr : f.removeInstr pos = .ok (i, g)) (hc : f.callAt pos' = .ok c)
    (hlt : pos'.label = pos.label → pos'.index < pos.index) : g.callAt pos' = .ok c := by
  obtain ⟨b', hb', hi'⟩ := callAt_eq_ok_iff.1 hc
  cases hb : f.body.find? pos.label with
  | none => simp [removeInstr, hb] at hr
  | some b =>
      obtain ⟨-, rfl⟩ := removeInstr_eq_ok hr hb
      refine callAt_eq_ok_iff.2 ?_
      by_cases hl : pos'.label = pos.label
      · rw [hl] at hb' ⊢
        obtain rfl : b = b' := Option.some.inj (hb.symm.trans hb')
        refine ⟨_, OrderedMap.find?_insert_self .., ?_⟩
        rw [List.getElem?_eraseIdx_of_lt (hlt hl)]
        exact hi'
      · exact ⟨b', by rw [OrderedMap.find?_insert_of_ne _ hl, hb'], hi'⟩

theorem callAt_mapOperands (hc : f.callAt pos = .ok c) (g : Operand → Operand) :
    ∃ c', (f.mapBlocks (Block.mapOperands g)).callAt pos = .ok c' := by
  obtain ⟨b, hb, hi⟩ := callAt_eq_ok_iff.1 hc
  refine ⟨{ c with callee := c.callee.mapOperands g, args := c.args.map g },
    callAt_eq_ok_iff.2 ⟨b.mapOperands g, ?_, ?_⟩⟩
  · rw [mapBlocks, OrderedMap.find?_map, hb]
    rfl
  · rw [Block.mapOperands, List.getElem?_map, hi]
    rfl

end Func

namespace Module

/-- The sites of a function are listed in order, block by block. -/
theorem pairwise_callSites (m : Module) (id : FuncId) : (m.callSites id).Pairwise fun s s' =>
    s.caller = s'.caller → s.pos.label = s'.pos.label → s.pos.index < s'.pos.index := by
  refine List.pairwise_flatMap.2 ⟨fun ⟨caller, f⟩ _ => List.pairwise_map.2 ?_, ?_⟩
  · refine (f.pairwise_calls.filter _).imp ?_
    exact fun h _ => h
  · have hids : m.funcs.entries.Pairwise fun e e' => e.1 ≠ e'.1 :=
      List.pairwise_map.1 m.funcs.nodup_ids
    refine hids.imp fun hne s hs s' hs' heq => ?_
    obtain ⟨_, -, rfl⟩ := List.mem_map.1 hs
    obtain ⟨_, -, rfl⟩ := List.mem_map.1 hs'
    exact absurd heq hne

theorem mem_callSites {m : Module} {id : FuncId} {site : CallSite} (h : site ∈ m.callSites id) :
    ∃ f c, m.funcs.get? site.caller = some f ∧ f.callAt site.pos = .ok c := by
  obtain ⟨⟨caller, f⟩, hf, h⟩ := List.mem_flatMap.1 h
  obtain ⟨⟨pos, c⟩, hc, rfl⟩ := List.mem_map.1 h
  exact ⟨f, c, Arena.mem_entries_iff.1 hf, Func.mem_calls_iff.1 (List.mem_filter.1 hc).1⟩

/-- What is left to fold are calls, the later ones of a block first. -/
structure Foldable (sites : List CallSite) (m : Module) : Prop where
  wellFormed : m.WellFormed
  calls : ∀ s ∈ sites, ∃ f c, m.funcs.get? s.caller = some f ∧ f.callAt s.pos = .ok c
  backward : sites.Pairwise fun s s' =>
    s'.caller = s.caller → s'.pos.label = s.pos.label → s'.pos.index < s.pos.index

end Module

/-- A value that is no register and needs nothing to be there. -/
def Operand.IsConstant : Operand → Prop
  | .imm _ | .undefined => True
  | _ => False

theorem Func.WellFormed.foldCall {m : Module} {f g : Func} {pos : Position} {c : Call} {r : Reg}
    {value : Operand} (h : f.WellFormed m) (hr : f.removeInstr pos = .ok (.call c, g))
    (hd : c.dest = some r) (hvalue : value.IsConstant) :
    (g.replaceReads r value).2.WellFormed m := by
  refine h.replaceReads hr hd ?_ fun _ _ s hs => ?_
  · cases value <;> trivial
  · subst hs
    exact absurd hvalue id

namespace ModuleM

theorem isConstant_oneOf (ty : Ty) : (oneOf ty).IsConstant := by
  rw [oneOf]
  split <;> trivial

theorem triple_foldCall {value : Operand} (hvalue : value.IsConstant) (site : CallSite)
    (sites : List CallSite) :
    Triple (Module.Foldable (site :: sites)) (foldCall value site)
      fun _ => Module.Foldable sites := by
  refine Triple.func_bind fun m f hm hf => ?_
  obtain ⟨hback, hbackward⟩ := List.pairwise_cons.1 hm.backward
  obtain ⟨f₀, c, hf₀, hc⟩ := hm.calls site List.mem_cons_self
  obtain rfl : f = f₀ := Option.some.inj (hf.symm.trans hf₀)
  obtain ⟨b, hb, hi⟩ := Func.callAt_eq_ok_iff.1 hc
  split
  · exact Triple.throw _
  · next i g hr =>
      obtain ⟨hi', hg⟩ := Func.removeInstr_eq_ok hr hb
      obtain rfl : i = .call c := Option.some.inj (hi'.symm.trans hi)
      refine Triple.change fun m' hm' => ?_
      subst hm'
      suffices h : ∀ folded : Func, folded.name = f.name → folded.WellFormed m' →
          (∀ pos' c', g.callAt pos' = .ok c' → ∃ c'', folded.callAt pos' = .ok c'') →
            Module.Foldable sites (m'.setFunc site.caller folded) by
        obtain ⟨dest, ty, callee, args, conv⟩ := c
        cases dest with
        | none =>
            exact h g (by rw [hg]) ((hm.wellFormed.funcs _ f hf).removeInstr hr rfl)
              fun _ c' h => ⟨c', h⟩
        | some r =>
            refine h _ (by rw [hg]; rfl) ((hm.wellFormed.funcs _ f hf).foldCall hr rfl hvalue) ?_
            exact fun _ _ h => Func.callAt_mapOperands h _
      intro folded hname hwf hcalls
      have hu := Module.updated_setFunc hf folded
      refine ⟨hm.wellFormed.updated hu hf (Or.inl hname.symm) hwf, fun s hs => ?_, hbackward⟩
      obtain ⟨f', c', hf', hc'⟩ := hm.calls s (List.mem_cons_of_mem _ hs)
      by_cases heq : s.caller = site.caller
      · rw [heq] at hf' ⊢
        obtain rfl : f = f' := Option.some.inj (hf.symm.trans hf')
        obtain ⟨c'', hc''⟩ := hcalls s.pos c' (Func.callAt_removeInstr hr hc' (hback s hs heq))
        exact ⟨folded, c'', hu.self, hc''⟩
      · exact ⟨f', c', (hu.other _ heq).trans hf', hc'⟩

theorem keeps_foldGlobalId : Keeps Module.WellFormed foldGlobalId := by
  refine Triple.keeps_get.bind fun m => ?_
  split
  · exact Triple.pure fun _ h => h
  · next id _ =>
      refine (Triple.keeps_func id).bind fun builtin => ?_
      split
      · exact Triple.pure fun _ h => h
      · refine Triple.get_bind fun m hm => ?_
        refine Triple.bind ((Triple.forM (I := Module.Foldable)
          (fun s sites => triple_foldCall (isConstant_oneOf _) s sites) _).conseq
            (fun m' hm' => ?_) fun _ _ h => h) fun _ => ?_
        · subst hm'
          refine ⟨hm, fun s hs => Module.mem_callSites (List.mem_reverse.1 hs), ?_⟩
          exact List.pairwise_reverse.2 (m'.pairwise_callSites id)
        · refine Triple.bind (R := fun _ => Module.WellFormed) (Triple.edit fun m₁ _ m₂ hm₁ h => ?_)
            fun _ => Triple.pure fun _ h => h
          obtain ⟨r, he, heq⟩ := map_eq_ok h
          obtain ⟨-, hid, hr⟩ := Module.eraseFunc_eq_ok (lift_eq_ok he)
          cases heq
          exact hr ▸ hm₁.wellFormed.erase hid

end ModuleM

end KernelIR
