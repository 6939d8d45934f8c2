import KernelIR.Proofs.BlackBox
import KernelIR.Proofs.Pruning
import Mathlib

/-!
# Chains of generic casts

The casts that a function passes to the black box may cast each other.  Each removal then changes
what those that are still listed cast.  Where casts do not go round in a circle, what is left in the
end is the same for every order: a cast is read as the first value along its chain that stays.
-/

namespace KernelIR

namespace Func

variable {f g : Func} {passed done : List Reg} {σ : Operand → Operand} {op op' : Operand}
  {r s : Reg}

/-- The body without the instructions that define one of `rs`, and with `σ op` read for `op`. -/
def without (rs : List Reg) (σ : Operand → Operand) (f : Func) : Func :=
  f.prune (fun i => ∀ r ∈ rs, i.dest? ≠ some r) σ

def HasCast (f : Func) (c : Cast) : Prop := ∃ e ∈ f.body.entries, .cast c ∈ e.2.instrs

theorem hasCast_iff_code {c : Cast} : f.HasCast c ↔ .cast c ∈ f.code := by
  simp [HasCast, code, mem_codeOf, Instr.bare_eq_cast_iff]

theorem mem_dests_without : s ∈ (f.without done σ).dests ↔ s ∈ f.dests ∧ s ∉ done := by
  have hdests : s ∈ f.dests ↔ ∃ b ∈ f.body.values, ∃ i ∈ b.instrs, i.dest? = some s := by
    simp [dests, Block.dests]
  rw [without, mem_dests_prune, hdests]
  constructor
  · rintro ⟨b, hb, i, hi, hkeep, hd⟩
    exact ⟨⟨b, hb, i, hi, hd⟩, fun hs => of_decide_eq_true hkeep s hs hd⟩
  · rintro ⟨⟨b, hb, i, hi, hd⟩, hs⟩
    refine ⟨b, hb, i, hi, decide_eq_true fun r hr heq => ?_, hd⟩
    exact hs (Option.some.inj (heq.symm.trans hd) ▸ hr)

/-- The definition of `r` is removed, and then `value` is read for it. -/
theorem replaceReads_eq_prune {pos : Position} {i : Instr} (hf : f.dests.Nodup)
    (h : f.removeInstr pos = .ok (i, g)) (hr : i.dest? = some r) (value : Operand) :
    (g.replaceReads r value).2 =
      f.prune (fun j => j.dest? ≠ some r) (Operand.replaceReg r value) := by
  have hdests : f.dests.Perm (r :: g.dests) := by
    rw [← destsOf_code, ← destsOf_code]
    refine (destsOf_perm (code_removeInstr h).1).trans (List.Perm.of_eq ?_)
    exact List.filterMap_cons_some (by simpa using hr)
  have hgone : ∀ b ∈ g.body.values, ∀ j ∈ b.instrs, decide (j.dest? ≠ some r) = true := by
    refine fun b hb j hj => decide_eq_true fun hd => ?_
    refine (List.nodup_cons.1 (hdests.nodup_iff.1 hf)).1 (List.mem_flatMap.2 ⟨b, hb, ?_⟩)
    exact List.mem_filterMap.2 ⟨j, hj, hd⟩
  have hg := eq_prune_of_removeInstr h (decide_eq_false (not_not.2 hr)) hgone
  rw [replaceReads, hg, mapOperands_eq_prune, prune_prune]
  exact prune_congr (fun _ _ _ _ => Bool.and_true _) fun _ _ _ _ => rfl

/-- One more register is read through. -/
theorem replaceReads_without {pos : Position} {i : Instr} (hf : f.dests.Nodup)
    (h : (f.without done σ).removeInstr pos = .ok (i, g)) (hr : i.dest? = some r)
    (value : Operand) : (g.replaceReads r value).2 =
      f.without (done ++ [r]) (Operand.replaceReg r value ∘ σ) := by
  rw [replaceReads_eq_prune (nodup_dests_prune hf) h hr, without, prune_prune]
  refine prune_congr (fun _ _ j _ => ?_) fun _ _ _ _ => rfl
  simp [or_imp, forall_and]

/-- A chain of casts is one of dependencies. -/
theorem dependsOn_of_readsThrough (h : Relation.TransGen (f.ReadsThrough passed) op op') :
    ∀ r s, op = .reg r → op' = .reg s → Relation.TransGen f.DependsOn r s := by
  have hstep : ∀ r s, f.ReadsThrough passed (.reg r) (.reg s) → f.DependsOn r s := by
    rintro r s ⟨_, -, pos, c, heq, hdef, hvalue⟩
    cases heq
    obtain ⟨hd, b, hb, hi⟩ := findDef?_eq_some hdef
    refine ⟨b, List.mem_map_of_mem (OrderedMap.mem_entries_iff.2 hb), .cast c,
      List.mem_of_getElem? hi, rfl, hd, ?_⟩
    simp [Instr.reads, Instr.operands, hvalue]
  induction h using Relation.TransGen.head_induction_on with
  | single h =>
      rintro r s rfl rfl
      exact .single (hstep r s h)
  | head h hrest ih =>
      rintro r s rfl rfl
      obtain ⟨_, ⟨t, -, -, -, rfl, -, -⟩, -⟩ := Relation.TransGen.head'_iff.1 hrest
      exact .head (hstep r t h) (ih t s rfl rfl)

/-- What is read in place of an operand is in scope if the operand is. -/
theorem Checked.inScope_of_comesTo (h : f.Checked) (hop : f.ComesTo passed op op')
    (hin : op.InScope (fun _ => True) f.params.length f.dests) :
    op'.InScope (fun _ => True) f.params.length f.dests := by
  induction hop with
  | refl => exact hin
  | tail _ hstep _ =>
      obtain ⟨r, -, pos, c, -, hdef, rfl⟩ := hstep
      obtain ⟨-, b, hb, hi⟩ := findDef?_eq_some hdef
      refine operandFault?_eq_none_iff.1 (h.reads _ b hb _ (List.mem_append_left _ ?_))
      exact List.mem_flatMap.2 ⟨.cast c, List.mem_of_getElem? hi, List.mem_singleton_self _⟩

theorem Checked.without (h : f.Checked) (hcomes : ∀ op, f.ComesTo passed op (σ op))
    (hends : ∀ op, ∀ r ∈ passed, σ op ≠ .reg r) : (f.without passed σ).Checked := by
  refine h.prune fun op hop => (h.inScope_of_comesTo (hcomes op) hop).mono fun s heq hs => ?_
  exact mem_dests_without.2 ⟨hs, fun hmem => hends op s hmem heq⟩

@[simp] theorem without_nil (f : Func) : f.without [] id = f :=
  prune_eq_self (by simp) fun _ _ _ _ => rfl

namespace Collapsed

variable {order : List Reg} {τ : Operand → Operand}

/-- Without circles no register that is removed is read in the end. -/
theorem ends (h : f.Collapsed passed passed σ g) (hacyclic : f.Acyclic) (op : Operand)
    (hr : r ∈ passed) : σ op ≠ .reg r :=
  fun heq => hacyclic r (dependsOn_of_readsThrough (h.circular op r hr heq) r r rfl rfl)

theorem eq_of_perm (h : f.Collapsed passed passed σ g) {g' : Func}
    (h' : f.Collapsed order order τ g') (hacyclic : f.Acyclic) (hperm : order.Perm passed) :
    σ = τ := by
  funext op
  refine (h.eq_iff_comesTo (fun _ hr => hr) ?_).2
    (Relation.ReflTransGen.mono ?_ _ _ (h'.comesTo op))
  · rintro next ⟨r, hr, -, -, heq, -⟩
    exact h'.ends hacyclic op (hperm.mem_iff.2 hr) heq
  · rintro op₁ op₂ ⟨r, hr, hstep⟩
    exact ⟨r, hperm.mem_iff.1 hr, hstep⟩

end Collapsed

theorem without_of_perm {order : List Reg} (h : order.Perm passed) (σ : Operand → Operand)
    (f : Func) : f.without order σ = f.without passed σ :=
  prune_congr (fun _ _ _ _ => by simp only [h.mem_iff]) fun _ _ _ _ => rfl

end Func

namespace Module

/-- `r` is a generic cast of `f` that `f` passes to the black box. -/
def PassesCast (m : Module) (f : Func) (r : Reg) : Prop :=
  ∃ blackBox, m.findFunc? blackBoxName = some blackBox ∧
    (∃ call, f.HasCall call ∧ call.callee.resolve? = some blackBox ∧ .reg r ∈ call.args) ∧
      ∃ c, f.HasCast c ∧ c.dest = r ∧ c.isGeneric = true

/-- The generic casts that `f` passes to the black box, if there is one. -/
def passedCasts (m : Module) (f : Func) : List Reg :=
  ((m.findFunc? blackBoxName).map f.genericArgs).getD []

variable {m : Module} {f : Func}

theorem nodup_passedCasts (m : Module) (f : Func) : (m.passedCasts f).Nodup := by
  rw [passedCasts]
  cases m.findFunc? blackBoxName with
  | none => exact List.nodup_nil
  | some blackBox => exact f.nodup_genericArgs blackBox

theorem isGenericCast_of_mem_passedCasts {r : Reg} (hr : r ∈ m.passedCasts f) :
    f.isGenericCast r = true := by
  rw [passedCasts] at hr
  cases hbox : m.findFunc? blackBoxName with
  | none => simp [hbox] at hr
  | some blackBox =>
      rw [hbox] at hr
      exact (Func.mem_genericArgs_iff.1 hr).2

theorem mem_passedCasts_iff (hf : f.dests.Nodup) {r : Reg} :
    r ∈ m.passedCasts f ↔ m.PassesCast f r := by
  rw [passedCasts, PassesCast]
  cases m.findFunc? blackBoxName with
  | none => simp
  | some blackBox =>
      simp only [Option.map_some, Option.getD_some, Option.some.injEq, exists_eq_left',
        Func.mem_genericArgs_iff, Func.isGenericCast_iff hf, Func.hasCast_iff_code]

end Module

namespace ModuleM

open KernelIR.Module

variable {m m' : Module} {id : FuncId} {f : Func} {passed : List Reg}

/-- What is left to remove, when `k` casts are removed from the body. -/
def Substituting (m : Module) (id : FuncId) (f : Func) (passed rest : List Reg) (k : Nat)
    (m' : Module) : Prop :=
  ∃ done σ, done ++ rest = passed ∧ done.length = k ∧ m' = m.setFunc id (f.without done σ) ∧
    f.Collapsed passed done σ (f.without done σ)

theorem collapseCast_substitutes (hlive : m.funcs.get? id = some f) (hf : f.dests.Nodup)
    (hpassed : passed.Nodup) (hcasts : ∀ r ∈ passed, f.isGenericCast r = true) {r : Reg}
    {rest : List Reg} {k : Nat} (h : Substituting m id f passed (r :: rest) k m') :
    ∃ n m'', (collapseCast id r).apply m' = (.ok n, m'') ∧
      Substituting m id f passed rest (k + n) m'' := by
  obtain ⟨done, σ, rfl, hlength, rfl, hg⟩ := h
  have hr : r ∈ done ++ r :: rest := by simp
  have hnew : r ∉ done := fun hmem =>
    List.disjoint_of_nodup_append hpassed hmem List.mem_cons_self
  obtain ⟨pos, c, hdef, hdest⟩ := Func.exists_findDef?_of_isGenericCast hf (hcasts r hr)
  obtain ⟨pos', g', hdef', hremove, hg'⟩ := hg.next hf hr hnew hdef
  have hbody : (g'.replaceReads r (σ c.value)).2 = f.without (done ++ [r]) _ :=
    Func.replaceReads_without hf hremove (congrArg some hdest) _
  have hrun := apply_collapseCast (updated_setFunc hlive _).self hdef' hremove
  rw [setFunc_setFunc, hbody] at hrun
  exact ⟨1, _, hrun, done ++ [r], _, by simp, by simp [hlength], rfl, hbody ▸ hg'⟩

/-- The casts are removed one after the other, in any order. -/
theorem sumOver_collapseCast_ok (hlive : m.funcs.get? id = some f) (hf : f.dests.Nodup)
    (hpassed : passed.Nodup) (hcasts : ∀ r ∈ passed, f.isGenericCast r = true) :
    ∃ σ, (sumOver passed (collapseCast id)).apply m =
        (.ok passed.length, m.setFunc id (f.without passed σ)) ∧
      f.Collapsed passed passed σ (f.without passed σ) := by
  have hstart : Substituting m id f passed passed 0 m := by
    refine ⟨[], fun op => op, rfl, rfl, ?_, ?_⟩
    · exact (f.without_nil ▸ setFunc_eq_self hlive).symm
    · exact f.without_nil.symm ▸ Func.Collapsed.refl f passed
  obtain ⟨n, m', hrun, done, σ, hdone, rfl, rfl, hg⟩ :=
    sumOver_ok (fun _ _ _ _ => collapseCast_substitutes hlive hf hpassed hcasts) hstart
  rw [List.append_nil] at hdone
  subst hdone
  exact ⟨σ, hrun, hg⟩

theorem apply_collapseGenericCasts (hlive : m.funcs.get? id = some f) :
    (collapseGenericCasts id).apply m =
      (sumOver (m.passedCasts f) (collapseCast id)).apply m := by
  rw [collapseGenericCasts, apply_bind, apply_get, passedCasts]
  dsimp only
  cases m.findFunc? blackBoxName with
  | none => rfl
  | some blackBox => exact apply_bind_of_ok (apply_func_of_some hlive) _

/-- Each generic cast that is passed to the black box goes, and is read as the first value along
its chain that stays.  The order in which the casts are listed makes no difference. -/
theorem collapseGenericCasts_substitutes (hlive : m.funcs.get? id = some f)
    (hssa : f.checkSSA = .ok ()) (hacyclic : f.Acyclic) :
    ∃ (passed : List Reg) (σ : Operand → Operand), passed.Nodup ∧
      (∀ r, r ∈ passed ↔ m.PassesCast f r) ∧
      (∀ op, f.ComesTo passed op (σ op) ∧ ∀ r ∈ passed, σ op ≠ .reg r) ∧
      (f.without passed σ).checkSSA = .ok () ∧
      (collapseGenericCasts id).apply m =
        (.ok passed.length, m.setFunc id (f.without passed σ)) ∧
      ∀ order : List Reg, order.Perm passed →
        (sumOver order (collapseCast id)).apply m = (collapseGenericCasts id).apply m := by
  have hchecked := Func.checkSSA_eq_ok_iff.1 hssa
  have hpassed := nodup_passedCasts m f
  have hcasts : ∀ r ∈ m.passedCasts f, f.isGenericCast r = true :=
    fun _ => isGenericCast_of_mem_passedCasts
  obtain ⟨σ, hrun, hg⟩ := sumOver_collapseCast_ok hlive hchecked.nodup hpassed hcasts
  refine ⟨m.passedCasts f, σ, hpassed, fun r => mem_passedCasts_iff hchecked.nodup,
    fun op => ⟨hg.comesTo op, fun _ => hg.ends hacyclic op⟩, ?_,
    (apply_collapseGenericCasts hlive).trans hrun, fun order hperm => ?_⟩
  · exact Func.checkSSA_eq_ok_iff.2 (hchecked.without hg.comesTo fun op _ => hg.ends hacyclic op)
  · obtain ⟨τ, hrun', hg'⟩ := sumOver_collapseCast_ok hlive hchecked.nodup
      (hperm.nodup_iff.2 hpassed) fun r hr => hcasts r (hperm.mem_iff.1 hr)
    rw [apply_collapseGenericCasts hlive, hrun, hrun', hperm.length_eq,
      Func.without_of_perm hperm, hg.eq_of_perm hg' hacyclic hperm]

namespace listedChain

def genericPtr : Ty := .ptr .generic

/-- A kernel casts its parameter three times over.  It passes the last and the first result to the
black box, in this order, and reads the last one again when it returns. -/
def kernel : Func where
  name := "k"
  params := [⟨none, .privatePtr⟩]
  retTy := genericPtr
  body := .ofList [(.entry,
    ⟨[.cast ⟨0, .addrSpaceCast, .arg 0, genericPtr⟩,
      .cast ⟨1, .addrSpaceCast, .reg 0, genericPtr⟩,
      .cast ⟨2, .addrSpaceCast, .reg 1, genericPtr⟩,
      .call ⟨none, .void, .direct ⟨1, 1⟩, [.reg 2, .reg 0], .spirFunc⟩], .ret (some (.reg 2))⟩)]

def kernelModule : Module where
  funcs := .ofList [
    { name := blackBoxName, params := [⟨none, genericPtr⟩, ⟨none, genericPtr⟩], retTy := .void },
    kernel]

end listedChain

open listedChain in
theorem listedChain_substitutes : ∃ passed σ, passed.length = 2 ∧
    (kernel.without passed σ).checkSSA = .ok () ∧
      (collapseGenericCasts ⟨2, 1⟩).apply kernelModule =
        (.ok 2, kernelModule.setFunc ⟨2, 1⟩ (kernel.without passed σ)) ∧
      ∀ order : List Reg, order.Perm passed → (sumOver order (collapseCast ⟨2, 1⟩)).apply
        kernelModule = (collapseGenericCasts ⟨2, 1⟩).apply kernelModule := by
  have hlive : kernelModule.funcs.get? ⟨2, 1⟩ = some kernel := by decide +kernel
  obtain ⟨passed, σ, -, -, -, hchecked, hrun, horder⟩ := collapseGenericCasts_substitutes hlive
    (by decide +kernel) (Func.acyclic_of_lt (by decide +kernel))
  have hcount : ((collapseGenericCasts ⟨2, 1⟩).apply kernelModule).1 = .ok 2 := by decide +kernel
  rw [hrun] at hcount
  have hlength := Except.ok.inj hcount
  exact ⟨passed, σ, hlength, hchecked, hlength ▸ hrun, horder⟩

end ModuleM

end KernelIR
