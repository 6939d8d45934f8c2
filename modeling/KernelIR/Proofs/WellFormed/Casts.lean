import KernelIR.GenericCast
import KernelIR.Proofs.Triple
import KernelIR.Proofs.WellFormed.Module
import Mathlib

/-!
# Casts in well-formed modules

A call through a cast becomes a direct call on arguments that are cast into fresh registers.  A
generic cast that feeds the black box is read through: its value ranks below its result.
-/

namespace KernelIR

/-- New casts write consecutive registers from `next` on and read what is given.  What is passed is
given or the result of a new cast. -/
structure Adapts (next : Reg) (given : List Operand) (casts : List Instr) (passed : List Operand) :
    Prop where
  results : destsOf casts = List.range' next casts.length
  reads : ∀ i ∈ casts, ∃ c : Cast, i = .cast c ∧ c.value ∈ given
  passed : ∀ op ∈ passed, op ∈ given ∨ ∃ r ∈ destsOf casts, op = .reg r

theorem Instr.bare_eq_cast_iff {i : Instr} {c : Cast} : i.bare = cast c ↔ i = cast c := by
  cases i <;> simp [bare, mapPhiLabels]

namespace Adapts

variable {next : Reg} {given passed : List Operand} {casts : List Instr}

theorem keep (h : Adapts next given casts passed) (arg : Operand) :
    Adapts next (arg :: given) casts (arg :: passed) := by
  refine ⟨h.results, fun i hi => ?_, fun op hop => ?_⟩
  · obtain ⟨c, rfl, hc⟩ := h.reads i hi
    exact ⟨c, rfl, List.mem_cons_of_mem _ hc⟩
  · rcases List.mem_cons.1 hop with rfl | hop
    · exact Or.inl List.mem_cons_self
    · exact (h.passed op hop).imp_left (List.mem_cons_of_mem _)

theorem cast (h : Adapts (next + 1) given casts passed) (kind : CastKind) (arg : Operand)
    (ty : Ty) :
    Adapts next (arg :: given) (.cast ⟨next, kind, arg, ty⟩ :: casts) (.reg next :: passed) := by
  have hresults : destsOf (.cast ⟨next, kind, arg, ty⟩ :: casts) = next :: destsOf casts := rfl
  refine ⟨?_, fun i hi => ?_, fun op hop => ?_⟩
  · rw [hresults, h.results, List.length_cons, List.range'_succ]
  · rcases List.mem_cons.1 hi with rfl | hi
    · exact ⟨_, rfl, List.mem_cons_self⟩
    · obtain ⟨c, rfl, hc⟩ := h.reads i hi
      exact ⟨c, rfl, List.mem_cons_of_mem _ hc⟩
  · rw [hresults]
    rcases List.mem_cons.1 hop with rfl | hop
    · exact Or.inr ⟨next, List.mem_cons_self, rfl⟩
    · exact (h.passed op hop).imp (List.mem_cons_of_mem _) fun ⟨r, hr, hop⟩ =>
        ⟨r, List.mem_cons_of_mem _ hr, hop⟩

end Adapts

/-- What is cast are arguments. -/
theorem mem_of_mem_typed {args : List Operand} {ty? : Operand → Option Ty} {tys : List Ty}
    {op : Operand} (h : op ∈ ((args.map fun op => (op, ty? op)).zip tys).map (·.1.1)) :
    op ∈ args := by
  obtain ⟨e, he, rfl⟩ := List.mem_map.1 h
  obtain ⟨op, hop, heq⟩ := List.mem_map.1 (List.of_mem_zip he).1
  exact heq ▸ hop

theorem adapts_adaptArgs (next : Reg) (args : List ((Operand × Option Ty) × Ty)) :
    Adapts next (args.map (·.1.1)) (adaptArgs next args).1 (adaptArgs next args).2 := by
  induction args generalizing next with
  | nil => exact ⟨rfl, fun _ h => absurd h List.not_mem_nil, fun _ h => absurd h List.not_mem_nil⟩
  | cons e rest ih =>
      obtain ⟨⟨arg, argTy⟩, ty⟩ := e
      rw [adaptArgs]
      split
      · exact (ih next).keep arg
      · exact (ih (next + 1)).cast _ arg ty

/-- A cast is needed for each operand that has not the type of its parameter. -/
theorem length_adaptArgs (next : Reg) (args : List ((Operand × Option Ty) × Ty)) :
    (adaptArgs next args).1.length = args.countP fun e => e.1.2 != some e.2 := by
  induction args generalizing next with
  | nil => rfl
  | cons e rest ih =>
      rw [adaptArgs]
      split
      · next heq =>
          rw [List.countP_cons_of_neg (by simp [heq])]
          exact ih next
      · next hne =>
          rw [List.countP_cons_of_pos (by simp [hne])]
          exact congrArg Nat.succ (ih (next + 1))

section InScope

variable {live : Operand → Prop} {m : Module} {next : Reg} {given passed exits : List Operand}
  {casts rest : List Instr} {params : Nat} {direct : Call} {id : FuncId}

theorem Adapts.destsOf_concat (hdest : direct.dest = none) :
    destsOf (casts ++ [Instr.call direct]) = destsOf casts := by
  rw [destsOf_append]
  simp [destsOf, Instr.dest?, hdest]

theorem Adapts.nodup (h : Adapts next given casts passed) : (destsOf casts).Nodup := by
  rw [h.results]
  exact List.nodup_range'

theorem Adapts.le_of_mem (h : Adapts next given casts passed) : ∀ r ∈ destsOf casts, next ≤ r := by
  intro r hr
  rw [h.results, List.mem_range'_1] at hr
  exact hr.1

theorem Adapts.inScope (h : Adapts next given casts direct.args)
    (hgiven : ∀ op ∈ given, op.InScope live params (destsOf rest))
    (hcallee : direct.callee = .direct id) (hlive : live (.func id)) :
    ∀ i ∈ casts ++ [Instr.call direct], ∀ op ∈ i.mentions,
      op.InScope live params (destsOf (casts ++ [Instr.call direct] ++ rest)) := by
  have hold : ∀ op ∈ given,
      op.InScope live params (destsOf (casts ++ [Instr.call direct] ++ rest)) :=
    fun op hop => (hgiven op hop).mono fun r _ hr => by
      rw [destsOf_append]
      exact List.mem_append_right _ hr
  intro i hi op hop
  rcases List.mem_append.1 hi with hi | hi
  · obtain ⟨c, rfl, hc⟩ := h.reads i hi
    obtain rfl := List.mem_singleton.1 hop
    exact hold _ hc
  · obtain rfl := List.mem_singleton.1 hi
    rcases List.mem_cons.1 hop with rfl | hop
    · rw [hcallee]
      exact hlive
    · rcases h.passed op hop with hop | ⟨r, hr, rfl⟩
      · exact hold op hop
      · rw [destsOf_append, destsOf_append]
        exact List.mem_append_left _ (List.mem_append_left _ hr)

/-- The casts and the direct call may come in where the call was. -/
theorem Adapts.scoped (h : Adapts next given casts direct.args)
    (hrest : Scoped live params rest exits) (hbase : ∀ r ∈ destsOf rest, r < next)
    (hgiven : ∀ op ∈ given, op.InScope live params (destsOf rest)) (hdest : direct.dest = none)
    (hcallee : direct.callee = .direct id) (hlive : live (.func id)) :
    Scoped live params (casts ++ [Instr.call direct] ++ rest) exits := by
  have hresults : destsOf (casts ++ [Instr.call direct]) = destsOf casts :=
    Adapts.destsOf_concat hdest
  change Scoped live params _ ([] ++ exits)
  exact hrest.append hbase (hresults ▸ h.nodup) (fun r hr => h.le_of_mem r (hresults ▸ hr))
    (h.inScope hgiven hcallee hlive) fun _ h => absurd h List.not_mem_nil

theorem Adapts.wellScoped (h : Adapts next given casts direct.args)
    (hrest : WellScoped m.Live params rest exits) (hbase : ∀ r ∈ destsOf rest, r < next)
    (hgiven : ∀ op ∈ given, op.InScope m.Live params (destsOf rest)) (hdest : direct.dest = none)
    (hcallee : direct.callee = .direct id) (hlive : m.funcs.contains id = true) :
    WellScoped m.Live params (casts ++ [Instr.call direct] ++ rest) exits := by
  have hresults : destsOf (casts ++ [Instr.call direct]) = destsOf casts :=
    Adapts.destsOf_concat hdest
  change WellScoped m.Live params _ ([] ++ exits)
  refine hrest.append hbase (hresults ▸ h.nodup) (fun r hr => h.le_of_mem r (hresults ▸ hr))
    (h.inScope hgiven hcallee hlive) (fun _ h => absurd h List.not_mem_nil)
    (fun i hi _ r hr s hs => ?_) fun c hc => ?_
  · rcases List.mem_append.1 hi with hi | hi
    · have hle := h.le_of_mem r (mem_destsOf.2 ⟨i, hi, hr⟩)
      obtain ⟨c, rfl, hc⟩ := h.reads i hi
      have hvalue : Operand.reg s = c.value := List.mem_singleton.1 hs
      have hin : (Operand.reg s).InScope m.Live params (destsOf rest) := hgiven _ (hvalue ▸ hc)
      exact Nat.lt_of_lt_of_le (hbase s hin) hle
    · obtain rfl := List.mem_singleton.1 hi
      simp [Instr.dest?, hdest] at hr
  · rcases List.mem_append.1 hc with hc | hc
    · obtain ⟨_, heq, -⟩ := h.reads _ hc
      cases heq
    · cases List.mem_singleton.1 hc
      exact ⟨id, by rw [hcallee]; rfl⟩

end InScope

namespace Func

variable {m : Module} {f : Func} {pos : Position} {call direct : Call} {id : FuncId} {r : Reg}

theorem not_mem_mentions_of_readCount (h : f.readCount r = 0) : .reg r ∉ f.mentions :=
  fun hmem => List.count_eq_zero.1 h (mem_reads_iff.2 hmem)

theorem Labelled.replaceInstr (h : f.Labelled) {b : Block} (hb : f.body.find? pos.label = some b)
    {new : List Instr} (hnew : ∀ i ∈ new, i.phiLabels = []) :
    (f.replaceInstr pos new).Labelled := by
  rw [Func.replaceInstr, OrderedMap.modify_eq_insert hb]
  refine h.insert hb fun k hk => ?_
  rcases List.mem_append.1 hk with hk | hk
  · exact List.mem_append_left _ hk
  · refine List.mem_append_right _ ?_
    obtain ⟨i, hi, hk⟩ := List.mem_flatMap.1 hk
    refine List.mem_flatMap.2 ⟨i, ?_, hk⟩
    rcases List.mem_append.1 hi with hi | hi
    · rcases List.mem_append.1 hi with hi | hi
      · exact List.mem_of_mem_take hi
      · rw [hnew i hi] at hk
        exact absurd hk List.not_mem_nil
    · exact List.mem_of_mem_drop hi

/-- A call with a result that nobody reads becomes a direct call on cast arguments.  What they are
made of is defined by the other instructions. -/
theorem code_replaceCall {live : Operand → Prop}
    (hscoped : Scoped live f.params.length f.code f.exits) (hcall : f.callAt pos = .ok call)
    (hunread : ∀ r, call.dest = some r → f.readCount r = 0) {given : List Operand}
    {casts : List Instr} (hgiven : ∀ op ∈ given, op ∈ call.args)
    (hadapts : Adapts f.nextReg given casts direct.args) :
    ∃ rest, f.code.Perm (.call call :: rest) ∧
      (f.replaceInstr pos (casts ++ [Instr.call direct])).code.Perm
        (casts ++ [Instr.call direct] ++ rest) ∧
      (f.replaceInstr pos (casts ++ [Instr.call direct])).exits.Perm f.exits ∧
      (∀ r, call.dest = some r → (∀ j ∈ rest, .reg r ∉ j.mentions) ∧ .reg r ∉ f.exits) ∧
      (∀ op ∈ given, op.InScope live f.params.length (destsOf rest)) ∧
      ∀ r ∈ destsOf rest, r < f.nextReg := by
  obtain ⟨b, hb, hi⟩ := callAt_eq_ok_iff.1 hcall
  obtain ⟨rest, hcode, hcode', hexits'⟩ := code_replaceInstr (casts ++ [Instr.call direct]) hb hi
  have hcasts : casts.map Instr.bare = casts := by
    refine (List.map_congr_left fun i hi => ?_).trans (List.map_id casts)
    obtain ⟨c, rfl, -⟩ := hadapts.reads i hi
    rfl
  have hmentions : ∀ {op}, op ∈ f.mentions ↔
      op ∈ ((Instr.call call).bare :: rest).flatMap Instr.mentions ∨ op ∈ f.exits := by
    intro op
    rw [mem_mentions_iff, (hcode.flatMap_right _).mem_iff]
  have hunread' : ∀ r, call.dest = some r → .reg r ∉ f.mentions := fun r hr =>
    not_mem_mentions_of_readCount (hunread r hr)
  refine ⟨rest, hcode, ?_, hexits', fun r hr => ⟨fun j hj hop => ?_, fun hop => ?_⟩,
    fun op hop => ?_, fun r hr => ?_⟩
  · rw [List.map_append, hcasts] at hcode'
    exact hcode'
  · exact hunread' r hr (hmentions.2 (Or.inl
      (List.mem_flatMap.2 ⟨j, List.mem_cons_of_mem _ hj, hop⟩)))
  · exact hunread' r hr (hmentions.2 (Or.inr hop))
  · have hmem : op ∈ (Instr.call call).mentions := List.mem_cons_of_mem _ (hgiven op hop)
    refine ((hscoped.of_perm hcode (List.Perm.refl _)).mentions _ List.mem_cons_self op hmem).mono
      fun r hr hin => ?_
    -- the call does not read its own result, since nobody does
    refine mem_destsOf_cons hin fun hd => hunread' r hd (hmentions.2 (Or.inl ?_))
    exact List.mem_flatMap.2 ⟨_, List.mem_cons_self, hr ▸ hmem⟩
  · obtain ⟨j, hj, hd⟩ := mem_destsOf.1 hr
    exact lt_nextReg_of_code hcode r (mem_destsOf.2 ⟨j, List.mem_cons_of_mem _ hj, hd⟩)

theorem Labelled.replaceCall (h : f.Labelled) (hcall : f.callAt pos = .ok call)
    {next : Reg} {given passed : List Operand} {casts : List Instr}
    (hadapts : Adapts next given casts passed) :
    (f.replaceInstr pos (casts ++ [Instr.call direct])).Labelled := by
  obtain ⟨b, hb, -⟩ := callAt_eq_ok_iff.1 hcall
  refine h.replaceInstr hb fun i hi => ?_
  rcases List.mem_append.1 hi with hi | hi
  · obtain ⟨c, rfl, -⟩ := hadapts.reads i hi
    rfl
  · rw [List.mem_singleton.1 hi]
    rfl

theorem WellFormed.replaceCall (h : f.WellFormed m) (hcall : f.callAt pos = .ok call)
    (hunread : ∀ r, call.dest = some r → f.readCount r = 0) {given : List Operand}
    {casts : List Instr} (hgiven : ∀ op ∈ given, op ∈ call.args)
    (hadapts : Adapts f.nextReg given casts direct.args) (hdest : direct.dest = none)
    (hcallee : direct.callee = .direct id) (hlive : m.funcs.contains id = true) :
    (f.replaceInstr pos (casts ++ [Instr.call direct])).WellFormed m := by
  obtain ⟨rest, hcode, hcode', hexits', hunread', hinScope, hbase⟩ :=
    code_replaceCall h.code.toScoped hcall hunread hgiven hadapts
  have hrest := (h.code.of_perm hcode (List.Perm.refl _)).drop hunread'
  exact ⟨h.labels.replaceCall hcall hadapts, WellScoped.of_perm
    (hadapts.wellScoped hrest hbase hinScope hdest hcallee hlive) hcode'.symm hexits'.symm⟩

theorem Checked.replaceCall (h : f.Checked) (hcall : f.callAt pos = .ok call)
    (hunread : ∀ r, call.dest = some r → f.readCount r = 0) {given : List Operand}
    {casts : List Instr} (hgiven : ∀ op ∈ given, op ∈ call.args)
    (hadapts : Adapts f.nextReg given casts direct.args) (hdest : direct.dest = none)
    (hcallee : direct.callee = .direct id) :
    (f.replaceInstr pos (casts ++ [Instr.call direct])).Checked := by
  obtain ⟨hlabels, hscoped⟩ := checked_iff.1 h
  obtain ⟨rest, hcode, hcode', hexits', hunread', hinScope, hbase⟩ :=
    code_replaceCall hscoped hcall hunread hgiven hadapts
  have hrest := (hscoped.of_perm hcode (List.Perm.refl _)).drop hunread'
  exact checked_iff.2 ⟨hlabels.replaceCall hcall hadapts, Scoped.of_perm
    (hadapts.scoped hrest hbase hinScope hdest hcallee trivial) hcode'.symm hexits'.symm⟩

/-- Instructions with one result are one. -/
theorem eq_of_dest?_eq {code : List Instr} (h : (destsOf code).Nodup) {i j : Instr} (hi : i ∈ code)
    (hj : j ∈ code) (hri : i.dest? = some r) (hrj : j.dest? = some r) : i = j := by
  let R (i j : Instr) : Prop := ∀ r, i.dest? = some r → ∀ s, j.dest? = some s → r ≠ s
  have : Std.Symm R := ⟨fun _ _ hij r hr s hs => (hij s hs r hr).symm⟩
  have hpairwise : code.Pairwise R := List.pairwise_filterMap.1 h
  by_contra hne
  exact hpairwise.forall hi hj hne r hri r hrj rfl

theorem findDef?_eq_some {i : Instr} (h : f.findDef? r = some (pos, i)) :
    i.dest? = some r ∧ ∃ b, f.body.find? pos.label = some b ∧ b.instrs[pos.index]? = some i :=
  ⟨by simpa using List.find?_some h, mem_instrs_iff.1 (List.mem_of_find?_eq_some h)⟩

/-- Only casts have the result `r`. -/
def CastDefines (f : Func) (r : Reg) : Prop :=
  ∀ i ∈ f.code, i.dest? = some r → ∃ c, i = .cast c

theorem WellFormed.castDefines (h : f.WellFormed m) (hr : f.isGenericCast r = true) :
    f.CastDefines r := by
  intro i hi hd
  rw [isGenericCast] at hr
  split at hr
  · next pos c hdef =>
      obtain ⟨hd', b, hb, hc⟩ := findDef?_eq_some hdef
      have hmem : Instr.cast c ∈ f.code :=
        mem_codeOf.2 ⟨_, OrderedMap.mem_entries_iff.2 hb, _, List.mem_of_getElem? hc, rfl⟩
      exact ⟨c, eq_of_dest?_eq h.code.nodup hi hmem hd hd'⟩
  · cases hr

variable {g : Func} {c : Cast}

/-- A cast may be read through: its value ranks below its result. -/
theorem WellFormed.replaceCast (h : f.WellFormed m) (hr : f.removeInstr pos = .ok (.cast c, g)) :
    (g.replaceReads c.dest c.value).2.WellFormed m := by
  have hmem : Instr.cast c ∈ f.code := (code_removeInstr hr).1.mem_iff.2 List.mem_cons_self
  refine h.replaceReads hr rfl ?_ fun rank hrank s hs => ?_
  · exact destsOf_code f ▸ h.code.mentions _ hmem _ List.mem_cons_self
  · exact hrank _ hmem rfl c.dest rfl s (hs ▸ List.mem_cons_self)

theorem CastDefines.replaceReads {i : Instr} {s : Reg} (h : f.CastDefines s)
    (hr : f.removeInstr pos = .ok (i, g)) (value : Operand) :
    (g.replaceReads r value).2.CastDefines s := by
  intro j hj hd
  rw [Func.replaceReads, code_mapOperands] at hj
  obtain ⟨j₀, hj₀, rfl⟩ := List.mem_map.1 hj
  rw [Instr.dest?_mapOperands] at hd
  obtain ⟨c, rfl⟩ := h j₀ ((code_removeInstr hr).1.mem_iff.2 (List.mem_cons_of_mem _ hj₀)) hd
  exact ⟨_, rfl⟩

end Func

theorem Module.exists_droppableCast? {m : Module} {site : CallSite} {id : FuncId}
    (h : m.findDroppableCast? = some (site, id)) : ∃ f call, m.funcs.get? site.caller = some f ∧
      f.callAt site.pos = .ok call ∧ m.droppableCast? f call = some id := by
  obtain ⟨⟨caller, f⟩, hf, h⟩ := List.exists_of_findSome?_eq_some h
  obtain ⟨⟨pos, call⟩, hcall, h⟩ := List.exists_of_findSome?_eq_some h
  obtain ⟨id', h, heq⟩ := Option.map_eq_some_iff.1 h
  cases heq
  exact ⟨f, call, Arena.mem_entries_iff.1 hf, Func.mem_calls_iff.1 hcall, h⟩

theorem Module.findDroppableCast?_eq_some {m : Module} {site : CallSite} {id : FuncId}
    (h : m.findDroppableCast? = some (site, id)) : ∃ f call, m.funcs.get? site.caller = some f ∧
      f.callAt site.pos = .ok call ∧ call.callee = .cast id ∧ m.funcs.contains id = true ∧
        ∀ r, call.dest = some r → f.readCount r = 0 := by
  obtain ⟨f, call, hf, hcall, h⟩ := exists_droppableCast? h
  refine ⟨f, call, hf, hcall, ?_⟩
  rw [droppableCast?] at h
  split at h
  · next hcast =>
      split at h
      · cases h
      · next target htarget =>
          split_ifs at h with hdrop
          cases h
          simp only [Bool.and_eq_true] at hdrop
          exact ⟨hcast, Arena.contains_iff.2 ⟨target, htarget⟩,
            fun r hr => by simpa [hr] using hdrop.1.1.1⟩
  · cases h

namespace ModuleM

/-- The call that was found may be replaced. -/
theorem triple_dropCallCast (site : CallSite) (callee : FuncId) :
    Triple (fun m => m.WellFormed ∧ m.findDroppableCast? = some (site, callee))
      (dropCallCast site callee) fun _ => Module.WellFormed := by
  refine Triple.func_bind fun m target ⟨hm, hfind⟩ _ =>
    Triple.func_bind fun m' caller hm' hcaller => ?_
  subst hm'
  obtain ⟨f, call, hf, hcall, -, hlive, hunread⟩ := Module.findDroppableCast?_eq_some hfind
  obtain rfl : f = caller := Option.some.inj (hf.symm.trans hcaller)
  rw [hcall]
  refine Triple.get_bind fun m'' hm'' => ?_
  rw [word_some_bind]
  refine Triple.set fun _ _ => ?_
  subst hm''
  refine hm.updated (Module.updated_setFunc hf _) hf (Or.inl rfl) ?_
  exact (hm.funcs _ f hf).replaceCall hcall hunread (fun _ => mem_of_mem_typed)
    (adapts_adaptArgs f.nextReg _) rfl rfl hlive

theorem keeps_dropCallCastsUpTo (bound : Nat) :
    Keeps Module.WellFormed (dropCallCastsUpTo dropCallCast bound) := by
  induction bound with
  | zero => exact Triple.pure fun _ hm => hm
  | succ bound ih =>
      refine Triple.get_bind fun m hm => ?_
      split
      · exact Triple.pure fun _ h => h ▸ hm
      · next site callee hfind =>
          have hdrop : Triple (· = m) (dropCallCast site callee) fun _ => Module.WellFormed :=
            (triple_dropCallCast site callee).conseq (fun _ h => h ▸ ⟨hm, hfind⟩) fun _ _ h => h
          exact hdrop.bind fun _ => ih.bind fun _ => Triple.pure fun _ h => h

theorem keeps_dropCallCasts : Keeps Module.WellFormed dropCallCasts :=
  Triple.keeps_get.bind fun _ => keeps_dropCallCastsUpTo _

/-- What is left to collapse is defined by casts. -/
def Collapsible (id : FuncId) (rs : List Reg) (m : Module) : Prop :=
  m.WellFormed ∧ ∀ f, m.funcs.get? id = some f → ∀ r ∈ rs, f.CastDefines r

theorem triple_collapseCast (id : FuncId) (r : Reg) (rs : List Reg) :
    Triple (Collapsible id (r :: rs)) (collapseCast id r) fun _ => Collapsible id rs := by
  refine Triple.func_bind fun m f ⟨hm, hcasts⟩ hf => ?_
  have hcasts' := hcasts f hf
  split
  · refine Triple.pure fun m' hm' => ?_
    subst hm'
    refine ⟨hm, fun g hg s hs => ?_⟩
    obtain rfl : f = g := Option.some.inj (hf.symm.trans hg)
    exact hcasts' s (List.mem_cons_of_mem _ hs)
  · next pos i hdef =>
      obtain ⟨hd, b, hb, hi⟩ := Func.findDef?_eq_some hdef
      obtain ⟨c, hc⟩ := hcasts' r List.mem_cons_self i.bare
        (mem_codeOf.2 ⟨_, OrderedMap.mem_entries_iff.2 hb, i, List.mem_of_getElem? hi, rfl⟩)
        (by simpa using hd)
      obtain rfl := Instr.bare_eq_cast_iff.1 hc
      have hcast : ∀ {j g}, f.removeInstr pos = .ok (j, g) → j = .cast c := fun hr =>
        Option.some.inj ((Func.removeInstr_eq_ok hr hb).1.symm.trans hi)
      split
      · exact Triple.throw _
      · next c' g hr =>
          cases hcast hr
          obtain rfl : c.dest = r := Option.some.inj hd
          refine Triple.change fun m' hm' => ?_
          subst hm'
          have hu := Module.updated_setFunc hf (g.replaceReads c.dest c.value).2
          refine ⟨hm.updated hu hf (Or.inl ?_) ((hm.funcs id f hf).replaceCast hr),
            fun g' hg' s hs => ?_⟩
          · rw [(Func.removeInstr_eq_ok hr hb).2]
            rfl
          · obtain rfl := Option.some.inj (hu.self.symm.trans hg')
            exact (hcasts' s (List.mem_cons_of_mem _ hs)).replaceReads hr c.value
      · next j g hne hr => exact absurd (hcast hr) (hne c)

theorem keeps_collapseGenericCasts (id : FuncId) :
    Keeps Module.WellFormed (collapseGenericCasts id) := by
  refine Triple.keeps_get.bind fun m => ?_
  split
  · exact Triple.pure fun _ h => h
  · next blackBox _ =>
      refine Triple.func_bind fun m f hm hf => ?_
      have hloop := Triple.sumOver (I := Collapsible id) (fun r rs => triple_collapseCast id r rs)
      refine (hloop _).conseq (fun m' hm' => ?_) fun _ _ h => h.1
      subst hm'
      refine ⟨hm, fun g hg r hr => ?_⟩
      obtain rfl : f = g := Option.some.inj (hf.symm.trans hg)
      exact (hm.funcs id f hf).castDefines (List.mem_filter.1 (List.mem_eraseDups.1 hr)).2

end ModuleM

end KernelIR
