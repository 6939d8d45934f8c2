import KernelIR.Proofs.CallCasts.Rewritten
import KernelIR.Proofs.Failing.Weights
import Mathlib

/-!
# No cast of a callee is left that can be dropped

Each round drops the cast of one callee and puts the casts of operands into registers above all
that are in use, so that nothing else changes its meaning.  There is one call through a cast less
then, so that as many rounds as there are such calls are enough.
-/

namespace KernelIR

theorem Ty.addressSpace?_ne {ty ty' : Ty} (h : ty.isPointer = true) (h' : ty'.isPointer = true)
    (hne : ty ≠ ty') : ty.addressSpace? ≠ ty'.addressSpace? := by
  cases ty <;> cases ty' <;> simp_all [isPointer, addressSpace?]

namespace Func

variable {f : Func} {pos : Position} {b : Block} {i : Instr} {new : List Instr} {r : Reg}

theorem destsOf_flat (f : Func) : destsOf f.flat = f.dests := by
  rw [destsOf, flat, List.filterMap_flatMap, dests, OrderedMap.values, List.flatMap_map]
  rfl

theorem definers_replaceInstr (new : List Instr) (hb : f.body.find? pos.label = some b)
    (hi : b.instrs[pos.index]? = some i) (r : Reg) :
    ∃ before behind, f.definers r = before ++ (definersOf [i] r ++ behind) ∧
      (f.replaceInstr pos new).definers r = before ++ (definersOf new r ++ behind) := by
  obtain ⟨before, behind, hflat, hnew⟩ := flat_replaceInstr new hb hi
  refine ⟨definersOf before r, definersOf behind r, ?_, ?_⟩
  · rw [definers, hflat, definersOf_append, definersOf_cons]
  · rw [definers, hnew, definersOf_append, definersOf_append, List.append_assoc]

/-- A register that was not defined is by what comes in. -/
theorem definers_replaceInstr_of_fresh (hb : f.body.find? pos.label = some b)
    (hi : b.instrs[pos.index]? = some i) (hr : r ∉ f.dests) :
    (f.replaceInstr pos new).definers r = definersOf new r := by
  obtain ⟨before, behind, hold, hnew⟩ := definers_replaceInstr new hb hi r
  rw [definers, definersOf_eq_nil_iff.2 (destsOf_flat f ▸ hr), eq_comm, List.append_eq_nil_iff,
    List.append_eq_nil_iff] at hold
  rw [hnew, hold.1, hold.2.2, List.append_nil, List.nil_append]

theorem definers_replaceInstr_of_not_mem (hb : f.body.find? pos.label = some b)
    (hi : b.instrs[pos.index]? = some i) (hd : i.dest? ≠ some r) (hr : r ∉ destsOf new) :
    (f.replaceInstr pos new).definers r = f.definers r := by
  obtain ⟨before, behind, hold, hnew⟩ := definers_replaceInstr new hb hi r
  have hone : r ∉ destsOf [i] := fun hmem => by
    obtain ⟨j, hj, hd'⟩ := mem_destsOf.1 hmem
    exact hd (List.mem_singleton.1 hj ▸ hd')
  rw [hold, hnew, definersOf_eq_nil_iff.2 hr, definersOf_eq_nil_iff.2 hone]

/-- What the instruction reads that goes is still read. -/
theorem reads_replaceInstr (hb : f.body.find? pos.label = some b)
    (hi : b.instrs[pos.index]? = some i)
    (hnew : ∀ r, .reg r ∈ i.mentions → .reg r ∈ new.flatMap Instr.mentions) :
    f.reads ⊆ (f.replaceInstr pos new).reads := by
  obtain ⟨rest, hcode, hcode', hexits⟩ := code_replaceInstr new hb hi
  have hbare : (new.map Instr.bare).flatMap Instr.mentions = new.flatMap Instr.mentions := by
    rw [List.flatMap_map]
    exact List.flatMap_congr fun i _ => i.mentions_bare
  intro r hr
  rw [mem_reads_iff, mem_mentions_iff, (hcode.flatMap_right _).mem_iff, List.flatMap_cons,
    Instr.mentions_bare, List.mem_append] at hr
  rw [mem_reads_iff, mem_mentions_iff, (hcode'.flatMap_right _).mem_iff, List.flatMap_append, hbare,
    hexits.mem_iff, List.mem_append]
  exact hr.imp_left (Or.imp_left (hnew r))

end Func

namespace Module

variable {m : Module} {f g : Func} {call : Call} {id : FuncId} {pos : Position} {retTy : Ty}
  {tys : List Ty} {args passed : List Operand} {casts : List Instr}

/-- The operands with their types, each with the type of its parameter. -/
def typedArgs (m : Module) (f : Func) (args : List Operand) (tys : List Ty) :
    List ((Operand × Option Ty) × Ty) :=
  (args.map fun op => (op, m.valueTy? f op)).zip tys

/-- Pointers of different types are in different address spaces, so that no cast is a bitcast. -/
theorem passes_adaptArgs {next : Reg} (hlength : tys.length = args.length)
    (htys : ∀ ty ∈ tys, ty.isPointer = true)
    (hargs : ∀ op ∈ args, ∃ ty, m.valueTy? f op = some ty ∧ ty.isPointer = true)
    (hunread : ∀ r, next ≤ r → r ∉ f.reads)
    (hdef : ∀ c, .cast c ∈ (adaptArgs next (m.typedArgs f args tys)).1 →
      g.definers c.dest = [.cast c]) :
    m.Passes f g args tys (adaptArgs next (m.typedArgs f args tys)).1
      (adaptArgs next (m.typedArgs f args tys)).2 := by
  induction args generalizing tys next with
  | nil =>
      obtain rfl := List.length_eq_zero_iff.1 hlength
      exact .nil
  | cons arg args ih =>
      cases tys with
      | nil => cases hlength
      | cons ty tys =>
          obtain ⟨⟨argTy, hargTy, hargPtr⟩, hargs⟩ := List.forall_mem_cons.1 hargs
          obtain ⟨htyPtr, htys⟩ := List.forall_mem_cons.1 htys
          have hlength := Nat.succ.inj hlength
          have htyped : m.typedArgs f (arg :: args) (ty :: tys) =
              ((arg, m.valueTy? f arg), ty) :: m.typedArgs f args tys := rfl
          rw [htyped, adaptArgs] at hdef ⊢
          by_cases heq : m.valueTy? f arg = some ty
          · rw [if_pos heq] at hdef ⊢
            exact .keep heq (ih hlength htys hargs hunread hdef)
          · have hspace : (m.valueTy? f arg).bind Ty.addressSpace? ≠ ty.addressSpace? := by
              rw [hargTy]
              exact Ty.addressSpace?_ne hargPtr htyPtr fun h => heq (h ▸ hargTy)
            rw [if_neg heq] at hdef ⊢
            simp only [if_neg hspace] at hdef ⊢
            -- the registers of the other casts lie above that of this one
            exact .cast heq (hunread next (Nat.le_refl _)) (hdef _ List.mem_cons_self)
              (ih hlength htys hargs (fun r hr => hunread r (Nat.le_of_succ_le hr))
                fun c hc => hdef c (List.mem_cons_of_mem _ hc))

theorem Passes.mem_or_exists_cast (h : m.Passes f g args tys casts passed) {op : Operand}
    (hop : op ∈ args) : op ∈ passed ∨ ∃ c : Cast, .cast c ∈ casts ∧ c.value = op := by
  induction h with
  | nil => cases hop
  | keep _ _ ih =>
      rcases List.mem_cons.1 hop with rfl | hop
      · exact Or.inl List.mem_cons_self
      · exact (ih hop).imp_left (List.mem_cons_of_mem _)
  | cast _ _ _ _ ih =>
      rcases List.mem_cons.1 hop with rfl | hop
      · exact Or.inr ⟨_, List.mem_cons_self, rfl⟩
      · exact (ih hop).imp (List.mem_cons_of_mem _) fun ⟨c, hc, hvalue⟩ =>
          ⟨c, List.mem_cons_of_mem _ hc, hvalue⟩

/-- What stands in the place of a call once the cast of its callee is dropped. -/
def uncastCall (m : Module) (f : Func) (call : Call) (id : FuncId) (retTy : Ty) (tys : List Ty) :
    List Instr :=
  let adapted := adaptArgs f.nextReg (m.typedArgs f call.args tys)
  adapted.1 ++ [.call ⟨none, retTy, .direct id, adapted.2, call.conv⟩]

section Step

/-! The cast of the callee of one call is dropped. -/

variable (h : m.Droppable f call id retTy tys) (hcall : f.callAt pos = .ok call)

theorem destsOf_uncastCall : destsOf (m.uncastCall f call id retTy tys) =
    destsOf (adaptArgs f.nextReg (m.typedArgs f call.args tys)).1 :=
  Adapts.destsOf_concat rfl

theorem nextReg_le_of_mem_uncastCall {r : Reg}
    (hr : r ∈ destsOf (m.uncastCall f call id retTy tys)) : f.nextReg ≤ r :=
  (adapts_adaptArgs _ _).le_of_mem r (destsOf_uncastCall ▸ hr)

include h hcall

theorem Droppable.passes :
    m.Passes f (f.replaceInstr pos (m.uncastCall f call id retTy tys)) call.args tys
      (adaptArgs f.nextReg (m.typedArgs f call.args tys)).1
      (adaptArgs f.nextReg (m.typedArgs f call.args tys)).2 := by
  obtain ⟨b, hb, hi⟩ := Func.callAt_eq_ok_iff.1 hcall
  refine passes_adaptArgs h.arity h.params h.args (fun r hr hread => ?_) fun c hc => ?_
  · exact absurd (Func.lt_nextReg_of_mem_reads hread) (Nat.not_lt.2 hr)
  · have hmem : .cast c ∈ m.uncastCall f call id retTy tys := List.mem_append_left _ hc
    have hfresh : c.dest ∉ f.dests := fun hold => absurd (Func.lt_nextReg_of_mem_dests hold)
      (Nat.not_lt.2 (nextReg_le_of_mem_uncastCall (mem_destsOf.2 ⟨_, hmem, rfl⟩)))
    rw [Func.definers_replaceInstr_of_fresh hb hi hfresh]
    refine definersOf_eq_singleton ?_ hmem rfl
    rw [destsOf_uncastCall]
    exact (adapts_adaptArgs _ _).nodup

theorem Droppable.carries :
    f.Carries (f.replaceInstr pos (m.uncastCall f call id retTy tys)) := by
  obtain ⟨b, hb, hi⟩ := Func.callAt_eq_ok_iff.1 hcall
  refine ⟨rfl, Func.reads_replaceInstr hb hi fun r hr => ?_, fun r hr => ?_⟩
  · rcases List.mem_cons.1 hr with heq | hr
    · rw [h.callee] at heq
      cases heq
    · rcases (h.passes hcall).mem_or_exists_cast hr with hmem | ⟨c, hc, hvalue⟩
      · exact List.mem_flatMap.2 ⟨_, List.mem_append_right _ List.mem_cons_self,
          List.mem_cons_of_mem _ hmem⟩
      · exact List.mem_flatMap.2 ⟨_, List.mem_append_left _ hc, List.mem_singleton.2 hvalue.symm⟩
  · refine Func.definers_replaceInstr_of_not_mem hb hi (fun hd => h.unread r hd hr) fun hmem => ?_
    exact absurd (Func.lt_nextReg_of_mem_reads hr)
      (Nat.not_lt.2 (nextReg_le_of_mem_uncastCall hmem))

theorem Droppable.uncasts {b : Block} (hb : f.body.find? pos.label = some b)
    (hi : b.instrs[pos.index]? = some (.call call)) :
    m.Uncasts f (f.replaceInstr pos (m.uncastCall f call id retTy tys)) b.instrs
      (b.instrs.take pos.index ++ m.uncastCall f call id retTy tys ++
        b.instrs.drop (pos.index + 1)) := by
  have hpasses := h.passes hcall
  have htyped := hpasses.map_valueTy? (h.carries hcall) fun r hr => Func.mem_reads_of_mem_args
    (Func.mem_flat_of_find? hb (List.mem_of_getElem? hi)) hr
  have hdrop := (Uncasts.drop h hpasses htyped
    (.refl m f _ (b.instrs.drop (pos.index + 1)))).append_left (b.instrs.take pos.index)
  rw [← Func.eq_take_append_cons hi] at hdrop
  simpa only [uncastCall, List.append_assoc, List.singleton_append] using hdrop

theorem Droppable.uncast : m.Uncast f (f.replaceInstr pos (m.uncastCall f call id retTy tys)) := by
  obtain ⟨b, hb, hi⟩ := Func.callAt_eq_ok_iff.1 hcall
  refine ⟨rfl, fun l => ?_, h.carries hcall, fun hf => Func.checkSSA_eq_ok_iff.2 ?_⟩
  · rw [Func.replaceInstr]
    by_cases hl : l = pos.label
    · rw [hl, OrderedMap.find?_modify_self, hb]
      exact .some ⟨rfl, h.uncasts hcall hb hi⟩
    · rw [OrderedMap.find?_modify_of_ne _ hl]
      exact rel_self (fun b => ⟨rfl, .refl m _ _ b.instrs⟩) _
  · exact (Func.Checked.of_checkSSA hf).replaceCall hcall
      (fun r hr => List.count_eq_zero.2 (h.unread r hr)) (fun _ => mem_of_mem_typed)
      (adapts_adaptArgs f.nextReg _) rfl rfl

end Step

/-- `m'` is `m` with the casts of `k` callees dropped. -/
structure CastsDropped (m : Module) (k : Nat) (m' : Module) : Prop where
  rest : m' = { m with funcs := m'.funcs }
  funcs : ∀ id, Option.Rel m.Uncast (m.funcs.get? id) (m'.funcs.get? id)
  count : k + m'.castCallCount = m.castCallCount

namespace CastsDropped

variable {m' m'' : Module} {k l : Nat}

theorem refl (m : Module) : m.CastsDropped 0 m :=
  ⟨rfl, fun _ => rel_self (Uncast.refl m) _, Nat.zero_add _⟩

theorem prototypes (h : m.CastsDropped k m') (id : FuncId) :
    (m'.funcs.get? id).map Func.prototype = (m.funcs.get? id).map Func.prototype :=
  map_eq_of_rel (h.funcs id) fun _ _ hr => by
    rw [hr.header]
    rfl

theorem globals (h : m.CastsDropped k m') : m'.globals = m.globals := by
  rw [h.rest]

theorem trans (h : m.CastsDropped k m') (h' : m'.CastsDropped l m'') :
    m.CastsDropped (l + k) m'' where
  rest := h'.rest.trans (by rw [h.rest])
  funcs id := rel_comp (h.funcs id) (h'.funcs id) fun _ _ _ _ _ hr hr' =>
    hr.trans (hr'.congr h.prototypes h.globals)
  count := by rw [← h.count, ← h'.count]; omega

end CastsDropped

end Module

namespace ModuleM

variable {m : Module}

section Rounds

variable {drop : CallSite → FuncId → ModuleM Unit}

end Rounds

section Bound

variable {m' : Module} {bound n : Nat}

end Bound

end ModuleM

end KernelIR
