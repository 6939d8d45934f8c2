import KernelIR.Proofs.History
import KernelIR.Proofs.Pruning
import KernelIR.Proofs.WellFormed.Builtin
import Mathlib

/-!
# Folded calls

The calls of a builtin are listed once and then removed, the last one first.  A removal moves only
what stands behind it, so that the list stays the list of the calls that are left.  In the end the
bodies are those without the calls, and what the calls computed is read as a constant.
-/

namespace KernelIR

/-- Whether the instruction is a call of `id`, whatever form its target has. -/
def Instr.callsTo (id : FuncId) (i : Instr) : Bool :=
  i.call?.any fun c => c.callee.resolve? = some id

namespace Func

/-- The registers that calls of `id` define. -/
def resultsOf (id : FuncId) (f : Func) : List Reg :=
  (f.calls.filter fun e => e.2.callee.resolve? = some id).filterMap fun e => e.2.dest

/-- What is read for an operand once the calls of `id` are folded to `value`. -/
def foldRead (id : FuncId) (value : Operand) (f : Func) : Operand → Operand
  | .reg r => if r ∈ f.resultsOf id then value else .reg r
  | op => op

/-- The calls of `id` are gone, and `value` is read for their results. -/
def withoutCalls (id : FuncId) (value : Operand) (f : Func) : Func :=
  f.prune (fun i => !i.callsTo id) (f.foldRead id value)

end Func

/-- The constant one of a type of integers of 1 to 64 bits; for other types there is none. -/
inductive IsOne : Ty → Operand → Prop
  | int {bits : Nat} (hpos : 1 ≤ bits) (hle : bits ≤ 64) : IsOne (.int bits) (.imm ⟨bits, 1⟩)
  | other {ty : Ty} (h : ∀ bits, ty = .int bits → bits = 0 ∨ 64 < bits) : IsOne ty .undefined

theorem ModuleM.isOne_oneOf (ty : Ty) : IsOne ty (oneOf ty) := by
  rw [oneOf]
  split
  · next c hc =>
      obtain ⟨bits, hbits, hc⟩ := Option.bind_eq_some_iff.1 hc
      obtain ⟨rfl, hfits⟩ := IntConst.ofNat?_eq_some_iff.1 hc
      obtain ⟨hpos, hle, -⟩ := (IntConst.fits_iff _).1 hfits
      cases ty with
      | int bits' =>
          obtain rfl := Option.some.inj hbits
          exact .int hpos hle
      | _ => cases hbits
  · next hnone =>
      refine .other fun bits hty => ?_
      subst hty
      by_contra hbits
      have hpos : 1 ≤ bits := by omega
      have hle : bits ≤ 64 := by omega
      have hfits : IntConst.fits ⟨bits, 1⟩ = true := by
        refine (IntConst.fits_iff _).2 ⟨hpos, hle, Nat.le_sub_of_add_le ?_⟩
        rw [Nat.shiftLeft_eq, Nat.one_mul]
        exact Nat.pow_le_pow_right Nat.two_pos hpos
      have hone := IntConst.ofNat?_eq_some_iff.2 ⟨rfl, hfits⟩
      cases hnone.symm.trans hone

variable {id : FuncId} {value : Operand}

namespace Instr

theorem callsTo_iff {i : Instr} :
    i.callsTo id = true ↔ ∃ c, i = .call c ∧ c.callee.resolve? = some id := by
  cases i <;> simp [callsTo, call?]

/-- A substitution that neither makes nor loses handles of functions does not change what is
called. -/
theorem callsTo_mapOperands {τ : Operand → Operand}
    (hτ : ∀ op, τ op = .func id ↔ op = .func id) (i : Instr) :
    (i.mapOperands τ).callsTo id = i.callsTo id := by
  cases i with
  | call c =>
      rcases c with ⟨dest, ty, callee, args, conv⟩
      rw [Bool.eq_iff_iff]
      cases callee <;> simp [callsTo, mapOperands, call?, Callee.resolve?_eq_some_iff,
        Callee.mapOperands, Callee.target, hτ]
  | _ => rfl

@[simp] theorem callsTo_bare (i : Instr) : i.bare.callsTo id = i.callsTo id := by
  cases i <;> rfl

end Instr

theorem Operand.IsConstant.ne_func (h : value.IsConstant) : value ≠ .func id := by
  rintro rfl
  exact h

/-- What is read for an operand when a result, if there is one, is folded to `value`. -/
def Operand.readAs (value : Operand) : Option Reg → Operand → Operand
  | some r => replaceReg r value
  | none => fun op => op

theorem Operand.readAs_of_ne {dest : Option Reg} {op : Operand}
    (h : ∀ r, dest = some r → op ≠ .reg r) : readAs value dest op = op := by
  cases dest with
  | none => rfl
  | some r => exact if_neg (h r rfl)

theorem Operand.readAs_eq_func_iff (hvalue : value.IsConstant) (dest : Option Reg)
    (op : Operand) : readAs value dest op = .func id ↔ op = .func id := by
  cases dest with
  | none => exact Iff.rfl
  | some r =>
      rw [readAs, replaceReg]
      split_ifs with h
      · simp [h, hvalue.ne_func]
      · rfl

/-- The number that an instruction had before the one at `pos` was removed. -/
def Position.before (pos pos' : Position) : Position :=
  if pos'.label = pos.label ∧ pos.index ≤ pos'.index then ⟨pos'.label, pos'.index + 1⟩ else pos'

namespace Func

variable {f g : Func} {pos : Position} {i : Instr} {c : Call} {r : Reg}

theorem instr?_removeInstr (h : f.removeInstr pos = .ok (i, g)) (pos' : Position) :
    g.instr? pos' = f.instr? (pos.before pos') := by
  cases hb : f.body.find? pos.label with
  | none => simp [removeInstr, hb] at h
  | some b =>
      obtain ⟨-, rfl⟩ := removeInstr_eq_ok h hb
      rw [instr?, instr?, Position.before]
      by_cases hl : pos'.label = pos.label
      · rw [hl, OrderedMap.find?_insert_self, Option.bind_some, List.getElem?_eraseIdx]
        split_ifs <;> first | omega | simp_all
      · rw [OrderedMap.find?_insert_of_ne _ hl, if_neg fun h => hl h.1]

theorem instr?_mapOperands (τ : Operand → Operand) (f : Func) (pos : Position) :
    (f.mapBlocks (Block.mapOperands τ)).instr? pos = (f.instr? pos).map (Instr.mapOperands τ) := by
  rw [instr?, instr?, mapBlocks, OrderedMap.find?_map]
  cases f.body.find? pos.label with
  | none => rfl
  | some b => exact List.getElem?_map ..

theorem mem_resultsOf_iff :
    r ∈ f.resultsOf id ↔ ∃ i ∈ f.code, i.callsTo id = true ∧ i.dest? = some r := by
  simp only [resultsOf, List.mem_filterMap, List.mem_filter, decide_eq_true_eq, Instr.callsTo_iff]
  constructor
  · rintro ⟨⟨pos, c⟩, ⟨he, hcallee⟩, hd⟩
    exact ⟨.call c, hasCall_iff_code.1 (hasCall_iff.2 ⟨pos, he⟩), ⟨c, rfl, hcallee⟩, hd⟩
  · rintro ⟨_, hc, ⟨c, rfl, hcallee⟩, hd⟩
    obtain ⟨pos, he⟩ := hasCall_iff.1 (hasCall_iff_code.2 hc)
    exact ⟨(pos, c), ⟨he, hcallee⟩, hd⟩

theorem mem_resultsOf_removeInstr (h : f.removeInstr pos = .ok (i, g))
    (hi : i.callsTo id = true) :
    r ∈ f.resultsOf id ↔ i.dest? = some r ∨ r ∈ g.resultsOf id := by
  simp [mem_resultsOf_iff, (code_removeInstr h).1.mem_iff, hi]

theorem mem_resultsOf_mapOperands {τ : Operand → Operand}
    (hτ : ∀ op, τ op = .func id ↔ op = .func id) :
    r ∈ (f.mapBlocks (Block.mapOperands τ)).resultsOf id ↔ r ∈ f.resultsOf id := by
  simp [mem_resultsOf_iff, code_mapOperands, Instr.callsTo_mapOperands hτ]

theorem foldRead_constant (hvalue : value.IsConstant) (f : Func) :
    f.foldRead id value value = value := by
  cases value <;> first | rfl | exact hvalue.elim

/-- A call less makes no difference to the body without the calls. -/
theorem withoutCalls_fold (hvalue : value.IsConstant) (h : f.removeInstr pos = .ok (i, g))
    (hi : i.callsTo id = true) :
    (g.mapBlocks (Block.mapOperands (Operand.readAs value i.dest?))).withoutCalls id value =
      f.withoutCalls id value := by
  have hfunc : ∀ op, Operand.readAs value i.dest? op = .func id ↔ op = .func id :=
    Operand.readAs_eq_func_iff hvalue i.dest?
  have hread : (g.mapBlocks (Block.mapOperands (Operand.readAs value i.dest?))).foldRead id
      value ∘ Operand.readAs value i.dest? = f.foldRead id value := by
    funext op
    have hresults : ∀ r, r ∈ f.resultsOf id ↔ i.dest? = some r ∨
        r ∈ (g.mapBlocks (Block.mapOperands (Operand.readAs value i.dest?))).resultsOf id :=
      fun r => by rw [mem_resultsOf_mapOperands hfunc, mem_resultsOf_removeInstr h hi]
    rw [Function.comp_apply]
    cases op with
    | reg s =>
        by_cases hs : i.dest? = some s
        · rw [foldRead, if_pos ((hresults s).2 (Or.inl hs)), hs, Operand.readAs,
            Operand.replaceReg, if_pos rfl, foldRead_constant hvalue]
        · rw [Operand.readAs_of_ne fun r hr heq =>
            hs (hr.trans (congrArg some (Operand.reg.inj heq).symm))]
          simp only [foldRead, hresults s, hs, false_or]
    | _ =>
        rw [Operand.readAs_of_ne (by simp)]
        rfl
  rw [withoutCalls, prune_mapOperands, hread, withoutCalls]
  simp only [Instr.callsTo_mapOperands hfunc]
  exact prune_removeInstr h (by simp [hi])

end Func

namespace Module

variable {m m' : Module} {f : Func}

theorem mem_callSites_iff {s : CallSite} : s ∈ m.callSites id ↔
    ∃ f i, m.funcs.get? s.caller = some f ∧ f.instr? s.pos = some i ∧ i.callsTo id = true := by
  rcases s with ⟨caller, pos⟩
  simp only [callSites, List.mem_flatMap, List.mem_map, List.mem_filter, Prod.exists,
    Arena.mem_entries_iff, Func.mem_calls_iff, beq_iff_eq, CallSite.mk.injEq]
  constructor
  · rintro ⟨_, f, hf, _, c, ⟨hc, hcallee⟩, rfl, rfl⟩
    exact ⟨f, .call c, hf, Func.instr?_eq_some_iff.2 (Func.callAt_eq_ok_iff.1 hc),
      Instr.callsTo_iff.2 ⟨c, rfl, hcallee⟩⟩
  · rintro ⟨f, i, hf, hi, hcalls⟩
    obtain ⟨c, rfl, hcallee⟩ := Instr.callsTo_iff.1 hcalls
    exact ⟨caller, f, hf, pos, c,
      ⟨Func.callAt_eq_ok_iff.2 (Func.instr?_eq_some_iff.1 hi), hcallee⟩, rfl, rfl⟩

/-- The calls at `rest` are what is left to fold of `start`, the later ones of a block first. -/
structure Folding (start : Module) (id : FuncId) (value : Operand) (rest : List CallSite)
    (m : Module) : Prop where
  sites : ∀ s, s ∈ m.callSites id ↔ s ∈ rest
  backward : rest.Pairwise fun s s' =>
    s'.caller = s.caller → s'.pos.label = s.pos.label → s'.pos.index < s.pos.index
  bodies : ∀ id', (m.funcs.get? id').map (Func.withoutCalls id value) =
    (start.funcs.get? id').map (Func.withoutCalls id value)
  others : { m with funcs := start.funcs } = start

/-- What was at a site that is left is not moved by the removal at a later one. -/
theorem before_mem_iff {site s : CallSite} {rest : List CallSite}
    (hlast : ∀ s ∈ rest, s.caller = site.caller → s.pos.label = site.pos.label →
      s.pos.index < site.pos.index) (hs : s.caller = site.caller) :
    ⟨s.caller, site.pos.before s.pos⟩ ∈ site :: rest ↔ s ∈ rest := by
  rw [List.mem_cons, Position.before]
  split_ifs with hmoved
  · obtain ⟨hlabel, hindex⟩ := hmoved
    constructor
    · rintro (heq | hmem)
      · have := congrArg (fun s => s.pos.index) heq
        dsimp only at this
        omega
      · have := hlast _ hmem hs hlabel
        dsimp only at this
        omega
    · intro hmem
      have := hlast s hmem hs hlabel
      omega
  · refine or_iff_right fun heq => hmoved ?_
    have hpos : s.pos = site.pos := congrArg CallSite.pos heq
    exact ⟨congrArg Position.label hpos, (congrArg Position.index hpos).ge⟩

end Module

namespace ModuleM

open KernelIR.Module

variable {start m m' : Module} {f g : Func} {i : Instr} {site : CallSite} {rest : List CallSite}

theorem apply_foldCall (hf : m.funcs.get? site.caller = some f)
    (hr : f.removeInstr site.pos = .ok (i, g)) (hi : i.callsTo id = true) :
    (foldCall value site).apply m = (.ok ⟨⟩, m.setFunc site.caller
      (g.mapBlocks (Block.mapOperands (Operand.readAs value i.dest?)))) := by
  obtain ⟨⟨dest, ty, callee, args, conv⟩, rfl, -⟩ := Instr.callsTo_iff.1 hi
  rw [foldCall, apply_bind_of_ok (apply_func_of_some hf), hr]
  cases dest with
  | some r => rfl
  | none =>
      have hg : g.mapBlocks (Block.mapOperands fun op => op) = g := by
        rw [Func.mapOperands_eq_prune]
        exact Func.prune_eq_self (fun _ _ _ _ => rfl) fun _ _ _ _ => rfl
      exact congrArg (fun g => (Except.ok PUnit.unit, m.setFunc site.caller g)) hg.symm

theorem foldCall_ok (hvalue : value.IsConstant) (h : Folding start id value (site :: rest) m) :
    ∃ m', (foldCall value site).apply m = (.ok ⟨⟩, m') ∧ Folding start id value rest m' := by
  obtain ⟨hlast, hrest⟩ := List.pairwise_cons.1 h.backward
  obtain ⟨f, i, hf, hi, hcalls⟩ := mem_callSites_iff.1 ((h.sites site).2 List.mem_cons_self)
  obtain ⟨b, hb, hget⟩ := Func.instr?_eq_some_iff.1 hi
  obtain ⟨g, hr⟩ := Func.exists_removeInstr hb hget
  have hu := updated_setFunc hf (g.mapBlocks (Block.mapOperands (Operand.readAs value i.dest?)))
  refine ⟨_, apply_foldCall hf hr hcalls, fun s => ?_, hrest, fun id' => ?_, h.others⟩
  · have hother : s.caller ≠ site.caller → s ≠ site := fun hne heq => hne (congrArg _ heq)
    rw [mem_callSites_iff]
    by_cases hs : s.caller = site.caller
    · rw [← before_mem_iff hlast hs, ← h.sites, mem_callSites_iff, hs, hu.self, hf]
      simp [Func.instr?_mapOperands, Func.instr?_removeInstr hr,
        Instr.callsTo_mapOperands (Operand.readAs_eq_func_iff hvalue i.dest?)]
    · rw [hu.other _ hs, ← mem_callSites_iff, h.sites, List.mem_cons, or_iff_right (hother hs)]
  · rw [← h.bodies]
    by_cases hid : id' = site.caller
    · rw [hid, hu.self, hf, Option.map_some, Option.map_some,
        Func.withoutCalls_fold hvalue hr hcalls]
    · rw [hu.other _ hid]

end ModuleM

namespace Func

variable {f : Func}

theorem foldRead_eq_func_iff (hvalue : value.IsConstant) (op : Operand) :
    f.foldRead id value op = .func id ↔ op = .func id := by
  cases op with
  | reg r =>
      rw [foldRead]
      split_ifs
      · simp [hvalue.ne_func]
      · simp
  | _ => simp [foldRead]

theorem withoutCalls_eq_self (h : ∀ pos i, f.instr? pos = some i → i.callsTo id = false) :
    f.withoutCalls id value = f := by
  have hcalls : ∀ b ∈ f.body.values, ∀ i ∈ b.instrs, i.callsTo id = false := by
    intro b hb i hi
    obtain ⟨⟨pos, _⟩, he, rfl⟩ := mem_instrs_of_mem hb hi
    exact h pos _ (instr?_eq_some_iff.2 (mem_instrs_iff.1 he))
  have hresults : ∀ r, r ∉ f.resultsOf id := by
    intro r hr
    obtain ⟨_, hi, hcall, -⟩ := mem_resultsOf_iff.1 hr
    obtain ⟨e, he, i, hmem, rfl⟩ := mem_codeOf.1 hi
    rw [Instr.callsTo_bare, hcalls e.2 (List.mem_map_of_mem he) i hmem] at hcall
    cases hcall
  refine prune_eq_self (fun b hb i hi => by rw [hcalls b hb i hi]; rfl) fun _ _ op _ => ?_
  cases op with
  | reg r => exact if_neg (hresults r)
  | _ => rfl

theorem func_mem_mentions_withoutCalls (hvalue : value.IsConstant) :
    .func id ∈ (f.withoutCalls id value).mentions ↔ ∃ b ∈ f.body.values,
      (∃ i ∈ b.instrs, i.callsTo id = false ∧ .func id ∈ i.mentions) ∨
        .func id ∈ b.terminator.operands := by
  have hfunc : ∀ id', f.foldRead id value (.func id') = .func id' := fun _ => rfl
  have hvalues : (f.withoutCalls id value).body.values =
      f.body.values.map (Block.prune (fun i => !i.callsTo id) (f.foldRead id value)) := by
    simp [OrderedMap.values, withoutCalls, entries_prune]
  simp [mentions, hvalues, List.mem_flatMap, Block.mem_mentions_prune _ hfunc,
    foldRead_eq_func_iff hvalue]

theorem Checked.withoutCalls (h : f.Checked) (hvalue : value.IsConstant) :
    (f.withoutCalls id value).Checked := by
  have hconstant : ∀ dests, value.InScope (fun _ => True) f.params.length dests := by
    intro dests
    cases value <;> trivial
  refine h.prune fun op hop => ?_
  cases op with
  | reg r =>
      rw [foldRead]
      split_ifs with hr
      · exact hconstant _
      · have hcode : r ∈ destsOf f.code := destsOf_code f ▸ hop
        obtain ⟨i, hi, hd⟩ := mem_destsOf.1 hcode
        obtain ⟨e, he, j, hj, rfl⟩ := mem_codeOf.1 hi
        refine mem_dests_prune.2 ⟨e.2, List.mem_map_of_mem he, j, hj, ?_, by simpa using hd⟩
        by_contra hcall
        exact hr (mem_resultsOf_iff.2 ⟨j.bare, hi, by simpa using hcall, hd⟩)
  | _ => exact hop

end Func

namespace Module

variable {m m' : Module}

/-- Whatever refers to `id` is a call of `id`. -/
structure OnlyCalls (m : Module) (id : FuncId) : Prop where
  instrs : ∀ caller f, m.funcs.get? caller = some f → ∀ b ∈ f.body.values, ∀ i ∈ b.instrs,
    .func id ∈ i.mentions → ∃ c, i = .call c ∧ c.callee.resolve? = some id
  terminators : ∀ caller f, m.funcs.get? caller = some f → ∀ b ∈ f.body.values,
    .func id ∉ b.terminator.operands
  initializers : ∀ gid g, m.globals.get? gid = some g → id ∉ g.listed

/-- All that has changed is that `id` is gone, and that `value` is read for what its calls
computed. -/
structure CallsFolded (m : Module) (id : FuncId) (value : Operand) (m' : Module) : Prop where
  erased : m'.funcs.get? id = none
  bodies : ∀ id', id' ≠ id →
    m'.funcs.get? id' = (m.funcs.get? id').map (Func.withoutCalls id value)
  others : { m' with funcs := m.funcs } = m

/-- When no call is left to fold, the bodies are those without the calls. -/
theorem Folding.bodies_eq {start : Module} (h : Folding start id value [] m) (id' : FuncId) :
    m.funcs.get? id' = (start.funcs.get? id').map (Func.withoutCalls id value) := by
  rw [← h.bodies]
  cases hf : m.funcs.get? id' with
  | none => rfl
  | some f =>
      refine congrArg some (Func.withoutCalls_eq_self fun pos i hi => ?_).symm
      by_contra hcall
      have hsite : (⟨id', pos⟩ : CallSite) ∈ m.callSites id :=
        mem_callSites_iff.2 ⟨f, i, hf, hi, by simpa using hcall⟩
      exact List.not_mem_nil ((h.sites _).1 hsite)

theorem Folding.globals_eq {start : Module} {rest : List CallSite}
    (h : Folding start id value rest m) : m.globals = start.globals := by
  rw [← h.others]

theorem Folding.refCount_eq_zero_iff {start : Module} (hvalue : value.IsConstant)
    (h : Folding start id value [] m) : m.refCount id = 0 ↔ start.OnlyCalls id := by
  rw [Module.refCount_eq_zero_iff, func_mem_mentions_iff, h.globals_eq, not_or]
  constructor
  · rintro ⟨hfuncs, hlisted⟩
    have hbody : ∀ caller f, start.funcs.get? caller = some f →
        .func id ∉ (f.withoutCalls id value).mentions := by
      refine fun caller f hf hmem => hfuncs ⟨caller, _, ?_, hmem⟩
      rw [h.bodies_eq, hf]
      rfl
    refine ⟨fun caller f hf b hb i hi hmem => ?_, fun caller f hf b hb hmem => ?_,
      fun gid g hg hmem => hlisted ⟨gid, g, hg, hmem⟩⟩
    · by_contra hcall
      refine hbody caller f hf ((Func.func_mem_mentions_withoutCalls hvalue).2
        ⟨b, hb, Or.inl ⟨i, hi, ?_, hmem⟩⟩)
      rwa [← Bool.not_eq_true, Instr.callsTo_iff]
    · exact hbody caller f hf ((Func.func_mem_mentions_withoutCalls hvalue).2 ⟨b, hb, Or.inr hmem⟩)
  · intro honly
    refine ⟨?_, fun ⟨gid, g, hg, hmem⟩ => honly.initializers gid g hg hmem⟩
    rintro ⟨caller, f', hf', hmem⟩
    rw [h.bodies_eq] at hf'
    obtain ⟨f, hf, rfl⟩ := Option.map_eq_some_iff.1 hf'
    obtain ⟨b, hb, ⟨i, hi, hcall, hmem⟩ | hmem⟩ :=
      (Func.func_mem_mentions_withoutCalls hvalue).1 hmem
    · rw [Instr.callsTo_iff.2 (honly.instrs caller f hf b hb i hi hmem)] at hcall
      cases hcall
    · exact honly.terminators caller f hf b hb hmem

theorem CallsFolded.globals_eq (h : m.CallsFolded id value m') : m'.globals = m.globals := by
  rw [← h.others]

/-- What is read in place of a live operand is live, but for the handle that is erased. -/
theorem CallsFolded.live (h : m.CallsFolded id value m') (hvalue : value.IsConstant) (f : Func)
    {op : Operand} (hop : m.Live op) (hne : op ≠ .func id) :
    m'.Live (f.foldRead id value op) := by
  cases op with
  | reg r =>
      rw [Func.foldRead]
      split_ifs
      · cases value <;> trivial
      · trivial
  | func id' =>
      have hne : id' ≠ id := fun heq => hne (congrArg _ heq)
      change m'.funcs.contains id' = true
      rw [Arena.contains, h.bodies id' hne, Option.isSome_map]
      exact hop
  | global gid =>
      change m'.globals.contains gid = true
      rw [h.globals_eq]
      exact hop
  | _ => trivial

theorem Folding.callsFolded {start : Module} (h : Folding start id value [] m) :
    start.CallsFolded id value { m with funcs := m.funcs.erase id } :=
  ⟨Arena.get?_erase_self _ _,
    fun id' hne => (Arena.get?_erase_of_ne _ hne).trans (h.bodies_eq id'), h.others⟩

theorem CallsFolded.verify (h : m.CallsFolded id value m') (hvalue : value.IsConstant)
    (honly : m.OnlyCalls id) (hverify : m.verify = .ok ()) : m'.verify = .ok () := by
  rw [verify_eq_ok_iff_fault?, fault?_eq_none_iff] at hverify ⊢
  obtain ⟨hsymbols, hchecked, hlive⟩ := hverify
  have hbody : ∀ id' f', m'.funcs.get? id' = some f' →
      ∃ f, m.funcs.get? id' = some f ∧ f.withoutCalls id value = f' := by
    intro id' f' hf'
    have hne : id' ≠ id := by
      rintro rfl
      rw [h.erased] at hf'
      cases hf'
    exact Option.map_eq_some_iff.1 ((h.bodies id' hne).symm.trans hf')
  refine ⟨nodup_symbols_of_names hsymbols (fun id' f' hf' => ?_) (fun gid g hg => ?_),
    fun f' hf' => ?_, fun f' hf' b' hb' i' hi' op' hop' => ?_⟩
  · obtain ⟨f, hf, rfl⟩ := hbody id' f' hf'
    exact ⟨f, hf, rfl⟩
  · exact ⟨g, h.globals_eq ▸ hg, rfl⟩
  · obtain ⟨id', hf'⟩ := Arena.mem_values_iff.1 hf'
    obtain ⟨f, hf, rfl⟩ := hbody id' f' hf'
    have hf := Func.checkSSA_eq_ok_iff.1 (hchecked f (Arena.mem_values_iff.2 ⟨id', hf⟩))
    exact Func.checkSSA_eq_ok_iff.2 (hf.withoutCalls hvalue)
  · obtain ⟨caller, hf'⟩ := Arena.mem_values_iff.1 hf'
    obtain ⟨f, hf, rfl⟩ := hbody caller f' hf'
    obtain ⟨_, he', rfl⟩ := List.mem_map.1 hb'
    obtain ⟨e, he, rfl⟩ := List.mem_map.1 he'
    obtain ⟨i, hfilter, rfl⟩ := List.mem_map.1 hi'
    obtain ⟨hi, hkeep⟩ := List.mem_filter.1 hfilter
    rw [Instr.mentions_mapOperands fun _ => rfl] at hop'
    obtain ⟨op, hop, rfl⟩ := List.mem_map.1 hop'
    have hb : e.2 ∈ f.body.values := List.mem_map_of_mem he
    have hfmem := Arena.mem_values_iff.2 ⟨caller, hf⟩
    refine h.live hvalue f (hlive f hfmem e.2 hb i hi op hop) ?_
    rintro rfl
    rw [Instr.callsTo_iff.2 (honly.instrs caller f hf e.2 hb i hi hop)] at hkeep
    cases hkeep

end Module

namespace ModuleM

open KernelIR.Module

variable {m m₁ : Module} {builtin : Func}

theorem apply_foldGlobalId (hid : m.findFunc? globalIdName = some id)
    (hb : m.funcs.get? id = some builtin) (hdecl : builtin.isDeclaration = true)
    (hloop : ((m.callSites id).reverse.forM (foldCall (oneOf builtin.retTy))).apply m =
      (.ok ⟨⟩, m₁)) (hlive : (m₁.funcs.get? id).isSome = true) :
    if m₁.refCount id = 0 then foldGlobalId.apply m =
      (.ok (m.callSites id).length, { m₁ with funcs := m₁.funcs.erase id })
    else ∃ e, (foldGlobalId.apply m).1 = .error e := by
  have hrun : foldGlobalId.apply m =
      ((edit fun m => (IRError.lift (m.eraseFunc id)).map fun e => ((), e.2)) >>=
        fun _ => pure (m.callSites id).length : ModuleM Nat).apply m₁ := by
    rw [foldGlobalId, apply_bind, apply_get]
    dsimp only
    rw [hid]
    dsimp only
    rw [apply_bind_of_ok (apply_func_of_some hb), hdecl, if_neg (by decide), apply_bind, apply_get]
    dsimp only
    exact apply_bind_of_ok hloop _
  obtain ⟨f, hf⟩ := Option.isSome_iff_exists.1 hlive
  rw [hrun, apply_bind, apply_edit, eraseFunc, hf]
  dsimp only
  split_ifs with hcount
  · rfl
  · exact ⟨_, rfl⟩

/-- Folding succeeds exactly if the builtin is referred to by its calls alone. -/
theorem foldGlobalId_folds (hverify : m.verify = .ok ())
    (hid : m.findFunc? globalIdName = some id) (hb : m.funcs.get? id = some builtin)
    (hdecl : builtin.isDeclaration = true) :
    ((∃ n m', foldGlobalId.apply m = (.ok n, m')) ↔ m.OnlyCalls id) ∧
      ∀ n m', foldGlobalId.apply m = (.ok n, m') → n = (m.callSites id).length ∧
        m'.verify = .ok () ∧ ∃ value, IsOne builtin.retTy value ∧ m.CallsFolded id value m' := by
  have hvalue := isConstant_oneOf builtin.retTy
  have hstart : Folding m id (oneOf builtin.retTy) (m.callSites id).reverse m :=
    ⟨fun _ => List.mem_reverse.symm, List.pairwise_reverse.2 (m.pairwise_callSites id),
      fun _ => rfl, rfl⟩
  obtain ⟨m₁, hloop, hm₁⟩ := forM_ok (fun _ _ _ => foldCall_ok hvalue) hstart
  have hlive : (m₁.funcs.get? id).isSome = true := by
    rw [hm₁.bodies_eq, hb]
    rfl
  have hrun := apply_foldGlobalId hid hb hdecl hloop hlive
  have hcount := hm₁.refCount_eq_zero_iff hvalue
  split_ifs at hrun with hzero
  · have honly := hcount.1 hzero
    have hfolded := hm₁.callsFolded
    refine ⟨iff_of_true ⟨_, _, hrun⟩ honly, fun n m' h => ?_⟩
    cases hrun.symm.trans h
    exact ⟨rfl, hfolded.verify hvalue honly hverify, _, isOne_oneOf _, hfolded⟩
  · obtain ⟨e, he⟩ := hrun
    have hfail : ∀ n m', foldGlobalId.apply m ≠ (.ok n, m') := by
      intro n m' h
      rw [h] at he
      cases he
    exact ⟨iff_of_false (fun ⟨n, m', h⟩ => hfail n m' h) (mt hcount.2 hzero),
      fun n m' h => absurd h (hfail n m')⟩

namespace grid

/-- A call of the builtin in each of the forms there are; the results are passed on to the next
call, to a phi and to the caller. -/
def kernel : Func where
  name := "k"
  params := []
  retTy := .int 64
  body := .ofList [
    (0, ⟨[.call ⟨some 0, .int 64, .direct ⟨1, 1⟩, [.imm (.i32 0)], .spirFunc⟩,
      .call ⟨some 1, .int 64, .cast ⟨1, 1⟩, [.reg 0], .spirFunc⟩,
      .arith .add 2 (.int 64) (.reg 0) (.reg 1)], .jump 1⟩),
    (1, ⟨[.phi ⟨3, .int 64, [(0, .reg 1)]⟩,
      .call ⟨none, .int 64, .indirect (.func ⟨1, 1⟩), [.func ⟨1, 1⟩], .spirFunc⟩],
      .ret (some (.reg 0))⟩)]

def globalId : Func where
  name := globalIdName
  params := [⟨none, .int 32⟩]
  retTy := .int 64

def gridModule : Module where
  funcs := .ofList [globalId, kernel]

end grid

open grid in
theorem gridModule_folds : gridModule.verify = .ok () ∧
    gridModule.findFunc? globalIdName = some ⟨1, 1⟩ ∧ gridModule.OnlyCalls ⟨1, 1⟩ ∧
      ∃ m', foldGlobalId.apply gridModule = (.ok 3, m') ∧ m'.verify = .ok () ∧
        ∃ value, IsOne globalId.retTy value ∧ gridModule.CallsFolded ⟨1, 1⟩ value m' := by
  have hverify : gridModule.verify = .ok () := by decide +kernel
  have hid : gridModule.findFunc? globalIdName = some ⟨1, 1⟩ := by decide +kernel
  have hb : gridModule.funcs.get? ⟨1, 1⟩ = some globalId := by decide +kernel
  obtain ⟨hiff, hfolds⟩ := foldGlobalId_folds hverify hid hb rfl
  have hcount : (foldGlobalId.apply gridModule).1 = .ok 3 := by decide +kernel
  have hrun : foldGlobalId.apply gridModule = (.ok 3, (foldGlobalId.apply gridModule).2) :=
    Prod.ext hcount rfl
  obtain ⟨-, hverified, hvalue⟩ := hfolds _ _ hrun
  exact ⟨hverify, hid, hiff.1 ⟨_, _, hrun⟩, _, hrun, hverified, hvalue⟩

end ModuleM

end KernelIR
