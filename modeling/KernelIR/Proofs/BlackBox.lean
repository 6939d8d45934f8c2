import KernelIR.GenericCast
import KernelIR.Proofs.WellFormed.Casts
import Mathlib

/-!
# What the black box gets

Each generic cast that is passed to the black box is removed, and what it casts is read in its
place.  The casts are listed once, before any of them is removed.  So a pass is enough exactly if
what comes into the place of a cast is no generic cast, or one that is listed too.
-/

namespace KernelIR

theorem nodup_eraseDups {α : Type} [BEq α] [LawfulBEq α] (xs : List α) : xs.eraseDups.Nodup := by
  induction xs using List.reverseRecOn with
  | nil => exact List.nodup_nil
  | append_singleton xs x ih =>
      rw [List.eraseDups_append, List.nodup_append]
      by_cases hx : x ∈ xs
      · simp [List.removeAll, hx, ih]
      · have hne : ∀ y ∈ xs, y ≠ x := fun y hy heq => hx (heq ▸ hy)
        simpa [List.removeAll, List.eraseDups_cons, hx, ih] using hne

/-- Code in single assignment is the one instruction that defines a register and the others. -/
theorem perm_cons_of_dest? {code : List Instr} (h : (destsOf code).Nodup) {i : Instr} {r : Reg}
    (hi : i ∈ code) (hr : i.dest? = some r) :
    code.Perm (i :: code.filter fun j => j.dest? ≠ some r) := by
  induction code with
  | nil => cases hi
  | cons j rest ih =>
      have hrest : (destsOf rest).Nodup := h.sublist ((List.sublist_cons_self j rest).filterMap _)
      by_cases hj : j.dest? = some r
      · obtain rfl := Func.eq_of_dest?_eq h hi List.mem_cons_self hr hj
        have hothers : ∀ k ∈ rest, k.dest? ≠ some r := by
          intro k hk hkr
          rw [destsOf, List.filterMap_cons_some hj, List.nodup_cons] at h
          exact h.1 (mem_destsOf.2 ⟨k, hk, hkr⟩)
        rw [List.filter_cons_of_neg (by simpa using hj),
          List.filter_eq_self.2 (by simpa using hothers)]
      · have hi : i ∈ rest := (List.mem_cons.1 hi).resolve_left fun heq => hj (heq ▸ hr)
        rw [List.filter_cons_of_pos (by simpa using hj)]
        exact ((ih hrest hi).cons j).trans (List.Perm.swap i j _)

namespace Func

variable {f g : Func} {r : Reg} {c : Cast} {blackBox : FuncId}

theorem exists_findDef?_iff (h : f.dests.Nodup) :
    (∃ pos, f.findDef? r = some (pos, .cast c)) ↔ .cast c ∈ f.code ∧ c.dest = r := by
  constructor
  · rintro ⟨pos, hdef⟩
    obtain ⟨hd, b, hb, hi⟩ := findDef?_eq_some hdef
    refine ⟨?_, Option.some.inj hd⟩
    exact mem_codeOf.2 ⟨_, OrderedMap.mem_entries_iff.2 hb, _, List.mem_of_getElem? hi, rfl⟩
  · rintro ⟨hc, rfl⟩
    obtain ⟨⟨l, b⟩, he, i, hi, heq⟩ := mem_codeOf.1 hc
    obtain rfl := Instr.bare_eq_cast_iff.1 heq
    obtain ⟨n, hn⟩ := List.mem_iff_getElem?.1 hi
    have hmem : (⟨l, n⟩, Instr.cast c) ∈ f.instrs :=
      mem_instrs_iff.2 ⟨b, find?_of_mem_entries he, hn⟩
    cases hdef : f.findDef? c.dest with
    | none => exact absurd (List.find?_eq_none.1 hdef _ hmem) (by simp [Instr.dest?])
    | some e =>
        have hd := (findDef?_eq_some hdef).1
        have hmem' := List.mem_of_find?_eq_some hdef
        rw [dests_eq] at h
        obtain rfl := eq_of_nodup_filterMap h hmem hmem' rfl hd
        exact ⟨_, rfl⟩

theorem isGenericCast_iff (h : f.dests.Nodup) :
    f.isGenericCast r = true ↔ ∃ c, .cast c ∈ f.code ∧ c.dest = r ∧ c.isGeneric = true := by
  have hdef : f.isGenericCast r = true ↔
      ∃ c, (∃ pos, f.findDef? r = some (pos, .cast c)) ∧ c.isGeneric = true := by
    rw [isGenericCast]
    split
    · next pos c hdef => simp [hdef]
    · next hne =>
        constructor
        · exact fun hfalse => absurd hfalse Bool.false_ne_true
        · rintro ⟨c, ⟨pos, hdef⟩, -⟩
          exact absurd hdef (hne pos c)
  simp only [hdef, exists_findDef?_iff h, and_assoc]

theorem exists_findDef?_of_isGenericCast (h : f.dests.Nodup) (hr : f.isGenericCast r = true) :
    ∃ pos c, f.findDef? r = some (pos, .cast c) ∧ c.dest = r := by
  obtain ⟨c, hc, hdest, -⟩ := (isGenericCast_iff h).1 hr
  obtain ⟨pos, hdef⟩ := (exists_findDef?_iff h).2 ⟨hc, hdest⟩
  exact ⟨pos, c, hdef, hdest⟩

/-- What a cast casts is read in place of its result, if that is one of `passed`. -/
def ReadsThrough (f : Func) (passed : List Reg) (op op' : Operand) : Prop :=
  ∃ r ∈ passed, ∃ pos c, op = .reg r ∧ f.findDef? r = some (pos, .cast c) ∧ c.value = op'

/-- What may be read in place of an operand while casts are removed. -/
abbrev ComesTo (f : Func) (passed : List Reg) : Operand → Operand → Prop :=
  Relation.ReflTransGen (f.ReadsThrough passed)

/-- No call of the black box gets a generic cast. -/
def Clean (f : Func) (blackBox : FuncId) : Prop :=
  ∀ c, f.HasCall c → c.callee.resolve? = some blackBox →
    ∀ r, .reg r ∈ c.args → f.isGenericCast r = false

/-- A generic cast to which an argument of the black box comes is itself one that the black box
gets.  A call is one of the black box if its target comes to the black box. -/
def PassesClosed (f : Func) (blackBox : FuncId) : Prop :=
  ∀ c, f.HasCall c → f.ComesTo (f.genericArgs blackBox) c.callee.target (.func blackBox) →
    ∀ op ∈ c.args, ∀ r, f.ComesTo (f.genericArgs blackBox) op (.reg r) →
      f.isGenericCast r = true → r ∈ f.genericArgs blackBox

theorem readsThrough_rightUnique (f : Func) (passed : List Reg) :
    Relator.RightUnique (f.ReadsThrough passed) := by
  rintro op op₁ op₂ ⟨r, -, pos, c, rfl, hdef, rfl⟩ ⟨r', -, pos', c', heq, hdef', rfl⟩
  cases heq
  cases hdef.symm.trans hdef'
  rfl

theorem mem_genericArgs_iff : r ∈ f.genericArgs blackBox ↔
    (∃ c, f.HasCall c ∧ c.callee.resolve? = some blackBox ∧ .reg r ∈ c.args) ∧
      f.isGenericCast r = true := by
  simp only [genericArgs, List.mem_eraseDups, List.mem_filter, List.mem_flatMap,
    List.mem_filterMap, Operand.reg?_eq_some_iff, decide_eq_true_eq, hasCall_iff, exists_eq_right]
  refine and_congr_left fun _ => ?_
  constructor
  · rintro ⟨⟨pos, c⟩, ⟨hc, hcallee⟩, hr⟩
    exact ⟨c, ⟨pos, hc⟩, hcallee, hr⟩
  · rintro ⟨c, ⟨pos, hc⟩, hcallee, hr⟩
    exact ⟨(pos, c), ⟨hc, hcallee⟩, hr⟩

theorem genericArgs_eq_nil_iff : f.genericArgs blackBox = [] ↔ f.Clean blackBox := by
  rw [List.eq_nil_iff_forall_not_mem]
  simp only [mem_genericArgs_iff, not_and, Bool.not_eq_true, forall_exists_index, and_imp]
  constructor
  · exact fun h c hc hcallee r hr => h r c hc hcallee hr
  · exact fun h r c hc hcallee hr => h c hc hcallee r hr

instance (f : Func) (blackBox : FuncId) : Decidable (f.Clean blackBox) :=
  decidable_of_iff _ genericArgs_eq_nil_iff

/-- What becomes of a body when the casts that define `done` are removed and `σ` is what is read in
place of an operand.  A removed register is left only where casts go round in a circle. -/
structure Collapsed (f : Func) (passed done : List Reg) (σ : Operand → Operand) (g : Func) :
    Prop where
  name : g.name = f.name
  code : g.code.Perm
    ((f.code.filter fun i => ∀ r ∈ done, i.dest? ≠ some r).map (Instr.mapOperands σ))
  comesTo : ∀ op, f.ComesTo passed op (σ op)
  circular : ∀ op, ∀ r ∈ done, σ op = .reg r →
    Relation.TransGen (f.ReadsThrough passed) (.reg r) (.reg r)

namespace Collapsed

variable {passed done : List Reg} {σ : Operand → Operand}

theorem refl (f : Func) (passed : List Reg) : f.Collapsed passed [] id f := by
  refine ⟨rfl, List.Perm.of_eq ?_, fun op => .refl, fun _ _ h => absurd h List.not_mem_nil⟩
  simp [List.map_congr_left fun i _ => Instr.mapOperands_id i]

theorem nodup (h : f.Collapsed passed done σ g) (hf : f.dests.Nodup) : g.dests.Nodup := by
  rw [← destsOf_code] at hf ⊢
  rw [(destsOf_perm h.code).nodup_iff, destsOf_map (Instr.dest?_mapOperands σ)]
  exact hf.sublist ((List.filter_sublist).filterMap _)

theorem mem_code_iff (h : f.Collapsed passed done σ g) {i : Instr} : i ∈ g.code ↔
    ∃ j ∈ f.code, (∀ r ∈ done, j.dest? ≠ some r) ∧ j.mapOperands σ = i := by
  rw [h.code.mem_iff]
  simp [and_assoc]

/-- One more cast is removed. -/
theorem next (h : f.Collapsed passed done σ g) (hf : f.dests.Nodup) (hr : r ∈ passed)
    (hnew : r ∉ done) {pos : Position} (hdef : f.findDef? r = some (pos, .cast c)) :
    ∃ pos' g', g.findDef? r = some (pos', .cast { c with value := σ c.value }) ∧
      g.removeInstr pos' = .ok (.cast { c with value := σ c.value }, g') ∧
      f.Collapsed passed (done ++ [r]) (Operand.replaceReg r (σ c.value) ∘ σ)
        (g'.replaceReads r (σ c.value)).2 := by
  obtain ⟨hc, rfl⟩ := (exists_findDef?_iff hf).1 ⟨pos, hdef⟩
  have hc' : Instr.cast { c with value := σ c.value } ∈ g.code := by
    refine h.mem_code_iff.2 ⟨.cast c, hc, ?_, rfl⟩
    intro r hr heq
    exact hnew (Option.some.inj heq ▸ hr)
  obtain ⟨pos', hdef'⟩ := (exists_findDef?_iff (h.nodup hf)).2 ⟨hc', rfl⟩
  obtain ⟨-, b, hb, hi⟩ := findDef?_eq_some hdef'
  obtain ⟨g', hremove⟩ := exists_removeInstr hb hi
  refine ⟨pos', g', hdef', hremove, ?_, ?_, ?_, ?_⟩
  case refine_1 => rw [← h.name, (removeInstr_eq_ok hremove hb).2]; rfl
  case refine_2 =>
    -- Destinations are distinct, so that the cast is all that the longer list drops in addition.
    have hothers : (f.code.filter fun i => ∀ r ∈ done, i.dest? ≠ some r).Perm
        (.cast c :: f.code.filter fun i => ∀ r ∈ done ++ [c.dest], i.dest? ≠ some r) := by
      refine (perm_cons_of_dest? (i := .cast c) (r := c.dest) ?_ ?_ rfl).trans (List.Perm.of_eq ?_)
      · rw [← destsOf_code] at hf
        exact hf.sublist (List.filter_sublist.filterMap _)
      · refine List.mem_filter.2 ⟨hc, decide_eq_true ?_⟩
        intro r hr heq
        exact hnew (Option.some.inj heq ▸ hr)
      · rw [List.filter_filter]
        congr 2
        funext i
        simp [or_imp, forall_and, and_comm]
    have hrest := (code_removeInstr hremove).1.symm.trans (h.code.trans (hothers.map _))
    rw [replaceReads, code_mapOperands]
    refine (hrest.cons_inv.map _).trans (List.Perm.of_eq ?_)
    simp
  case refine_3 =>
    intro op
    rw [Function.comp_apply, Operand.replaceReg]
    split_ifs with heq
    · exact ((h.comesTo op).tail ⟨c.dest, hr, pos, c, heq, hdef, rfl⟩).trans (h.comesTo c.value)
    · exact h.comesTo op
  case refine_4 =>
    intro op r hdone heq
    rw [Function.comp_apply, Operand.replaceReg] at heq
    rcases List.mem_append.1 hdone with hdone | hdone
    · split_ifs at heq
      · exact h.circular _ r hdone heq
      · exact h.circular _ r hdone heq
    · obtain rfl := List.mem_singleton.1 hdone
      split_ifs at heq
      · exact Relation.TransGen.head' ⟨c.dest, hr, pos, c, rfl, hdef, rfl⟩
          (heq ▸ h.comesTo c.value)
      · contradiction

/-- What goes round in a circle does not get out of it. -/
theorem circular_of_comesTo {op op' : Operand} (h : f.ComesTo passed op op')
    (hop : Relation.TransGen (f.ReadsThrough passed) op op) :
    Relation.TransGen (f.ReadsThrough passed) op' op' := by
  induction h using Relation.ReflTransGen.head_induction_on with
  | refl => exact hop
  | head hstep _ ih =>
      obtain ⟨next, hstep', hback⟩ := Relation.TransGen.head'_iff.1 hop
      obtain rfl := readsThrough_rightUnique f passed hstep hstep'
      exact ih (Relation.TransGen.tail' hback hstep)

/-- Once all casts are removed, an operand is read as that to which it comes in the end. -/
theorem eq_iff_comesTo (h : f.Collapsed passed done σ g) (hdone : ∀ r ∈ passed, r ∈ done)
    {op op' : Operand} (hend : ∀ next, ¬f.ReadsThrough passed op' next) :
    σ op = op' ↔ f.ComesTo passed op op' := by
  constructor
  · rintro rfl
    exact h.comesTo op
  · intro hop
    have hback : ∀ {next}, f.ComesTo passed op' next → next = op' := by
      intro next hnext
      rcases Relation.ReflTransGen.cases_head hnext with heq | ⟨mid, hmid, -⟩
      · exact heq.symm
      · exact absurd hmid (hend mid)
    -- Each operand is read through in at most one way, so one of the two ends is past the other.
    rcases Relation.ReflTransGen.total_of_right_unique (readsThrough_rightUnique f passed)
      (h.comesTo op) hop with hread | hread
    · rcases Relation.ReflTransGen.cases_head hread with heq | ⟨next, ⟨r, hr, _, _, heq, _⟩, _⟩
      · exact heq
      · have hcircle := h.circular op r (hdone r hr) heq
        obtain ⟨next, hnext, -⟩ :=
          Relation.TransGen.head'_iff.1 (circular_of_comesTo (heq ▸ hread) hcircle)
        exact absurd hnext (hend next)
    · exact hback hread

theorem func_eq (h : f.Collapsed passed done σ g) (id : FuncId) : σ (.func id) = .func id := by
  rcases Relation.ReflTransGen.cases_head (h.comesTo (.func id)) with
    heq | ⟨_, ⟨_, _, _, _, hne, _⟩, _⟩
  · exact heq.symm
  · cases hne

theorem isGenericCast_iff (h : f.Collapsed passed done σ g) (hf : f.dests.Nodup) :
    g.isGenericCast r = true ↔ r ∉ done ∧ f.isGenericCast r = true := by
  rw [Func.isGenericCast_iff (h.nodup hf), Func.isGenericCast_iff hf]
  constructor
  · rintro ⟨c', hc', rfl, hgeneric⟩
    obtain ⟨j, hj, hdone, heq⟩ := h.mem_code_iff.1 hc'
    cases j with
    | cast c =>
        cases heq
        exact ⟨fun hmem => hdone _ hmem rfl, c, hj, rfl, hgeneric⟩
    | _ => cases heq
  · rintro ⟨hdone, c, hc, rfl, hgeneric⟩
    refine ⟨{ c with value := σ c.value }, h.mem_code_iff.2 ⟨.cast c, hc, ?_, rfl⟩, rfl, hgeneric⟩
    intro r hr heq
    exact hdone (Option.some.inj heq ▸ hr)

/-- No call is removed. -/
theorem hasCall_iff (h : f.Collapsed passed done σ g) (hf : f.dests.Nodup)
    (hcasts : ∀ r ∈ done, f.isGenericCast r = true) {c' : Call} : g.HasCall c' ↔
      ∃ c, f.HasCall c ∧ (Instr.call c).mapOperands σ = .call c' := by
  simp only [hasCall_iff_code, h.mem_code_iff]
  constructor
  · rintro ⟨j, hj, -, heq⟩
    obtain ⟨c, rfl, -⟩ := Instr.exists_of_mapOperands_eq_call heq
    exact ⟨c, hj, heq⟩
  · rintro ⟨c, hc, heq⟩
    refine ⟨.call c, hc, ?_, heq⟩
    intro r hr hd
    obtain ⟨cast, hcast, hdest, -⟩ := (Func.isGenericCast_iff hf).1 (hcasts r hr)
    rw [← destsOf_code] at hf
    cases eq_of_dest?_eq hf hc hcast hd (congrArg some hdest)

end Collapsed

theorem Collapsed.target_mapOperands {passed done : List Reg} {σ : Operand → Operand}
    (h : f.Collapsed passed done σ g) (callee : Callee) :
    (callee.mapOperands σ).target = σ callee.target := by
  cases callee with
  | direct id | cast id => exact (h.func_eq id).symm
  | indirect op => rfl

/-- The black box gets no generic cast afterwards exactly if none could come into the place of one
that it got. -/
theorem Collapsed.clean_iff {σ : Operand → Operand}
    (h : f.Collapsed (f.genericArgs blackBox) (f.genericArgs blackBox) σ g)
    (hf : f.dests.Nodup) : g.Clean blackBox ↔ f.PassesClosed blackBox := by
  have hcasts : ∀ r ∈ f.genericArgs blackBox, f.isGenericCast r = true :=
    fun r hr => (mem_genericArgs_iff.1 hr).2
  have hcalls : ∀ {c'}, g.HasCall c' ↔
      ∃ c, f.HasCall c ∧ (Instr.call c).mapOperands σ = .call c' := h.hasCall_iff hf hcasts
  have hfunc : ∀ {op}, σ op = .func blackBox ↔
      f.ComesTo (f.genericArgs blackBox) op (.func blackBox) := by
    intro op
    apply h.eq_iff_comesTo fun _ hr => hr
    rintro next ⟨_, _, _, _, hne, _⟩
    cases hne
  have hreg : ∀ {r}, r ∉ f.genericArgs blackBox → ∀ {op}, σ op = .reg r ↔
      f.ComesTo (f.genericArgs blackBox) op (.reg r) := by
    intro r hr op
    apply h.eq_iff_comesTo fun _ hr => hr
    rintro next ⟨_, hr', _, _, heq, _⟩
    cases heq
    exact hr hr'
  constructor
  · intro hclean c hc htarget op hop r hcomes hgeneric
    by_contra hmem
    have hcall := hcalls.2 ⟨c, hc, rfl⟩
    have hcallee : (c.callee.mapOperands σ).resolve? = some blackBox := by
      rw [Callee.resolve?_eq_some_iff, h.target_mapOperands, hfunc]
      exact htarget
    have hpassed : .reg r ∈ c.args.map σ := List.mem_map.2 ⟨op, hop, (hreg hmem).2 hcomes⟩
    have hnot := hclean _ hcall hcallee r hpassed
    rw [(h.isGenericCast_iff hf).2 ⟨hmem, hgeneric⟩] at hnot
    cases hnot
  · intro hclosed c' hc' hcallee r hr
    obtain ⟨c, hc, heq⟩ := hcalls.1 hc'
    cases heq
    rw [Callee.resolve?_eq_some_iff, h.target_mapOperands, hfunc] at hcallee
    obtain ⟨op, hop, heq⟩ := List.mem_map.1 hr
    by_contra hgeneric
    obtain ⟨hmem, hgeneric⟩ := (h.isGenericCast_iff hf).1 (by simpa using hgeneric)
    exact hmem (hclosed c hc hcallee op hop r ((hreg hmem).1 heq) hgeneric)

theorem nodup_genericArgs (f : Func) (blackBox : FuncId) : (f.genericArgs blackBox).Nodup :=
  nodup_eraseDups _

end Func

namespace ModuleM

open KernelIR.Module

/-- What is left to remove, when `k` casts are removed. -/
def Collapsing (m : Module) (id : FuncId) (f : Func) (passed rest : List Reg) (k : Nat)
    (m' : Module) : Prop :=
  ∃ done σ g, done ++ rest = passed ∧ done.length = k ∧ m.Updated id g m' ∧
    f.Collapsed passed done σ g

variable {m m' : Module} {id : FuncId} {f : Func} {passed : List Reg}

theorem apply_collapseCast {r : Reg} {g : Func} {pos : Position} {c : Cast}
    (hf : m.funcs.get? id = some f) (hdef : f.findDef? r = some (pos, .cast c))
    (hremove : f.removeInstr pos = .ok (.cast c, g)) :
    (collapseCast id r).apply m = (.ok 1, m.setFunc id (g.replaceReads r c.value).2) := by
  rw [collapseCast, apply_bind_of_ok (apply_func_of_some hf), hdef]
  dsimp only
  rw [hremove]
  rfl

theorem collapseCast_ok (hf : f.dests.Nodup) (hpassed : passed.Nodup)
    (hcasts : ∀ r ∈ passed, f.isGenericCast r = true) {r : Reg} {rest : List Reg} {k : Nat}
    (h : Collapsing m id f passed (r :: rest) k m') : ∃ n m'',
      (collapseCast id r).apply m' = (.ok n, m'') ∧ Collapsing m id f passed rest (k + n) m'' := by
  obtain ⟨done, σ, g, hsplit, hlength, hu, hg⟩ := h
  have hr : r ∈ passed := by simp [← hsplit]
  have hnew : r ∉ done := by
    intro hmem
    rw [← hsplit] at hpassed
    exact List.disjoint_of_nodup_append hpassed hmem List.mem_cons_self
  obtain ⟨pos, c, hdef, -⟩ := Func.exists_findDef?_of_isGenericCast hf (hcasts r hr)
  obtain ⟨pos', g', hdef', hremove, hg'⟩ := hg.next hf hr hnew hdef
  refine ⟨1, _, apply_collapseCast hu.self hdef' hremove, done ++ [r], _, _, ?_, ?_,
    hu.trans (updated_setFunc hu.self _), hg'⟩
  · simpa using hsplit
  · simp [hlength]

/-- The casts are removed one after the other, and none is missed. -/
theorem collapseGenericCasts_ok {blackBox : FuncId}
    (hbox : m.findFunc? blackBoxName = some blackBox) (hlive : m.funcs.get? id = some f)
    (hf : f.dests.Nodup) : ∃ m' σ g,
      (collapseGenericCasts id).apply m = (.ok (f.genericArgs blackBox).length, m') ∧
        m.Updated id g m' ∧
          f.Collapsed (f.genericArgs blackBox) (f.genericArgs blackBox) σ g := by
  have hstart : Collapsing m id f (f.genericArgs blackBox) (f.genericArgs blackBox) 0 m :=
    ⟨[], _, f, rfl, rfl, updated_self hlive, Func.Collapsed.refl f _⟩
  have hcasts : ∀ r ∈ f.genericArgs blackBox, f.isGenericCast r = true :=
    fun r hr => (Func.mem_genericArgs_iff.1 hr).2
  obtain ⟨n, m', hrun, done, σ, g, hdone, rfl, hu, hg⟩ :=
    sumOver_ok (I := Collapsing m id f (f.genericArgs blackBox)) (f := collapseCast id)
      (fun _ _ _ _ => collapseCast_ok hf (f.nodup_genericArgs blackBox) hcasts) hstart
  rw [List.append_nil] at hdone
  subst hdone
  refine ⟨m', σ, g, ?_, hu, hg⟩
  rw [collapseGenericCasts, apply_bind, apply_get]
  dsimp only
  rw [hbox]
  dsimp only
  rw [apply_bind, apply_func, hlive]
  exact hrun

theorem collapseGenericCasts_of_clean {blackBox : FuncId}
    (hbox : m.findFunc? blackBoxName = some blackBox) (hlive : m.funcs.get? id = some f)
    (hclean : f.Clean blackBox) : (collapseGenericCasts id).apply m = (.ok 0, m) := by
  rw [collapseGenericCasts, apply_bind, apply_get]
  dsimp only
  rw [hbox]
  dsimp only
  rw [apply_bind, apply_func, hlive]
  dsimp only
  rw [Func.genericArgs_eq_nil_iff.2 hclean]
  rfl

end ModuleM

namespace Module

variable {m : Module} {id : FuncId}

/-- No call of the function to the black box gets a generic cast. -/
def BlackBoxClean (m : Module) (id : FuncId) : Prop :=
  ∀ blackBox f, m.findFunc? blackBoxName = some blackBox → m.funcs.get? id = some f →
    f.Clean blackBox

instance (m : Module) (id : FuncId) : Decidable (m.BlackBoxClean id) :=
  decidable_of_iff
    (∀ blackBox ∈ m.findFunc? blackBoxName, ∀ f ∈ m.funcs.get? id, f.Clean blackBox)
    ⟨fun h blackBox f hbox hf => h blackBox hbox f hf,
      fun h blackBox hbox f hf => h blackBox f hbox hf⟩

/-- What comes into the place of the casts that the function passes to the black box is passed to it
already, if it is a generic cast. -/
def PassesClosed (m : Module) (id : FuncId) : Prop :=
  ∀ blackBox f, m.findFunc? blackBoxName = some blackBox → m.funcs.get? id = some f →
    f.PassesClosed blackBox

open ModuleM

theorem Updated.findFunc?_eq {m' : Module} {f g : Func} (h : m.Updated id g m')
    (hm : m.symbols.Nodup) (hf : m.funcs.get? id = some f) (hname : g.name = f.name)
    (name : String) : m'.findFunc? name = m.findFunc? name := by
  have hm' := h.nodup_symbols hm hf (Or.inl hname.symm)
  apply Option.ext
  intro id'
  rw [findFunc?_eq_some_iff hm, findFunc?_eq_some_iff hm']
  by_cases heq : id' = id
  · subst heq
    simp [h.self, hf, hname]
  · rw [h.other id' heq]

/-- A pass over a function leaves the black box without generic casts exactly if the list of the
casts that are passed misses none that could come into the place of another.  Exactly then a second
pass finds nothing to remove. -/
theorem collapseGenericCasts_clean_iff (hverify : m.verify = .ok ())
    (hlive : m.funcs.contains id = true) : ∃ n m', (collapseGenericCasts id).apply m = (.ok n, m') ∧
      (m'.BlackBoxClean id ↔ m.PassesClosed id) ∧
      ((collapseGenericCasts id).apply m' = (.ok 0, m') ↔ m.PassesClosed id) := by
  obtain ⟨f, hf⟩ := Arena.contains_iff.1 hlive
  obtain ⟨hm, hchecked, -⟩ := fault?_eq_none_iff.1 (verify_eq_ok_iff_fault?.1 hverify)
  have hdests : f.dests.Nodup :=
    (Func.checkSSA_eq_ok_iff.1 (hchecked f (Arena.mem_values_iff.2 ⟨id, hf⟩))).nodup
  cases hbox : m.findFunc? blackBoxName with
  | none =>
      have hrun : (collapseGenericCasts id).apply m = (.ok 0, m) := by
        rw [collapseGenericCasts, apply_bind, apply_get]
        dsimp only
        rw [hbox]
        rfl
      refine ⟨0, m, hrun, ?_, ?_⟩ <;> simp [BlackBoxClean, PassesClosed, hbox, hrun]
  | some blackBox =>
      obtain ⟨m', σ, g, hrun, hu, hg⟩ := collapseGenericCasts_ok hbox hf hdests
      have hbox' : m'.findFunc? blackBoxName = some blackBox := by
        rw [hu.findFunc?_eq hm hf hg.name, hbox]
      have hclosed : m.PassesClosed id ↔ f.PassesClosed blackBox := by
        simp [PassesClosed, hbox, hf]
      refine ⟨_, m', hrun, ?_, ?_⟩
      · rw [hclosed, ← hg.clean_iff hdests]
        simp [BlackBoxClean, hbox', hu.self]
      · rw [hclosed, ← hg.clean_iff hdests]
        constructor
        · intro hagain
          obtain ⟨m'', _, _, hrun', -⟩ := collapseGenericCasts_ok hbox' hu.self (hg.nodup hdests)
          have hlength := hrun'.symm.trans hagain
          simp only [Prod.mk.injEq, Except.ok.injEq, List.length_eq_zero_iff] at hlength
          exact Func.genericArgs_eq_nil_iff.1 hlength.1
        · exact collapseGenericCasts_of_clean hbox' hu.self

namespace castChain

def genericPtr : Ty := .ptr .generic

/-- A kernel casts its parameter and then the result of the cast, and passes some of the two
results to the black box, each in a call of its own. -/
def passing (passed : List Reg) : Module where
  funcs := .ofList [
    { name := blackBoxName, params := [⟨none, genericPtr⟩], retTy := .void, conv := .spirFunc },
    { name := "k", params := [⟨none, .privatePtr⟩], retTy := .void, conv := .spirKernel
      body := .ofList [(.entry,
        ⟨[.cast ⟨0, .addrSpaceCast, .arg 0, genericPtr⟩,
          .cast ⟨1, .addrSpaceCast, .reg 0, genericPtr⟩] ++
          passed.map fun r => .call ⟨none, .void, .direct ⟨1, 1⟩, [.reg r], .spirFunc⟩,
          .ret none⟩)] }]

def once (passed : List Reg) : Module := ((collapseGenericCasts ⟨2, 1⟩).apply (passing passed)).2

end castChain

open castChain in
theorem castChain_clean : (passing [1, 0]).verify = .ok () ∧
    (passing [1, 0]).funcs.contains ⟨2, 1⟩ = true ∧ (passing [1, 0]).PassesClosed ⟨2, 1⟩ ∧
      ∃ n m', (collapseGenericCasts ⟨2, 1⟩).apply (passing [1, 0]) = (.ok n, m') ∧
        m'.BlackBoxClean ⟨2, 1⟩ := by
  have hverify : (passing [1, 0]).verify = .ok () := by decide +kernel
  have hlive : (passing [1, 0]).funcs.contains ⟨2, 1⟩ = true := by decide +kernel
  obtain ⟨n, m', hrun, hclean, hagain⟩ := collapseGenericCasts_clean_iff hverify hlive
  obtain rfl : once [1, 0] = m' := congrArg Prod.snd hrun
  have hclosed := hagain.1 (by decide +kernel)
  exact ⟨hverify, hlive, hclosed, n, _, hrun, hclean.2 hclosed⟩

open castChain in
/-- Of two casts the second one alone is passed.  Then the first one is, and is left for a second
pass. -/
theorem castChain_not_clean : (passing [1]).verify = .ok () ∧
    (passing [1]).funcs.contains ⟨2, 1⟩ = true ∧
      (collapseGenericCasts ⟨2, 1⟩).apply (passing [1]) = (.ok 1, once [1]) ∧
        ¬(once [1]).BlackBoxClean ⟨2, 1⟩ ∧
          ((collapseGenericCasts ⟨2, 1⟩).apply (once [1])).1 = .ok 1 := by
  decide +kernel

end Module

end KernelIR
