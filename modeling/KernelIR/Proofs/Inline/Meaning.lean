import KernelIR.Proofs.ByteMachine
import KernelIR.Proofs.Inline.Inside
import Mathlib

/-!
# Inlining keeps the meaning of a module

The module runs before and after inlining in step.  An activation of the callee that the inlined
call started is a part of the activation of the caller afterwards; all other activations stay.
-/

namespace KernelIR

variable {M : Machine}

section Lockstep

variable {α β : Type} {R : α → β → Prop} {n : α → Option α} {n' : β → Option β}

theorem exists_of_lockstep (h : ∀ s s', R s s' → Option.Rel R (n s) (n' s')) {s t : α} {s' : β}
    (hs : R s s') (ht : Relation.ReflTransGen (fun a b => n a = some b) s t) :
    ∃ t', Relation.ReflTransGen (fun a b => n' a = some b) s' t' ∧ R t t' := by
  induction ht with
  | refl => exact ⟨s', .refl, hs⟩
  | @tail a b _ hab ih =>
      obtain ⟨a', ha', hR⟩ := ih
      have hstep := h a a' hR
      rw [hab] at hstep
      generalize hb' : n' a' = o at hstep
      cases hstep with
      | some hRb => exact ⟨_, ha'.tail hb', hRb⟩

theorem reflTransGen_of_iterate (k : Nat) {s t : α}
    (h : (fun o : Option α => o.bind n)^[k] (some s) = some t) :
    Relation.ReflTransGen (fun a b => n a = some b) s t := by
  induction k generalizing t with
  | zero =>
      cases h
      exact .refl
  | succ k ih =>
      rw [Function.iterate_succ_apply'] at h
      obtain ⟨a, ha, hat⟩ := Option.bind_eq_some_iff.1 h
      exact (ih ha).tail hat

theorem rel_flip {a : Option α} {b : Option β} (h : Option.Rel R a b) :
    Option.Rel (flip R) b a := by
  cases h with
  | some h => exact .some h
  | none => exact .none

end Lockstep

namespace Frame

variable {F : Frame M} {f : Func} {mem : M.Memory}

theorem act_cases {a : Action M} (h : F.act f mem = some a) :
    (∃ i, f.instr? F.pos = some i ∧ i.act F.eval mem = some a) ∨
      ∃ b, f.body.find? F.pos.label = some b ∧ b.instrs[F.pos.index]? = none ∧
        b.terminator.act F.eval = some a := by
  obtain ⟨b, hb, h⟩ := Option.bind_eq_some_iff.1 h
  cases hi : b.instrs[F.pos.index]? with
  | some i =>
      rw [hi] at h
      exact Or.inl ⟨i, Func.instr?_eq_some_iff.2 ⟨b, hb, hi⟩, h⟩
  | none =>
      rw [hi] at h
      exact Or.inr ⟨b, hb, rfl.trans hi, h⟩

end Frame

theorem Instr.act_eq_some {i : Instr} {eval : Operand → M.Value} {mem : M.Memory} {a : Action M}
    (h : i.act eval mem = some a) : (∃ v mem', a = .set v mem') ∨ ∃ e, a = .call e := by
  cases i with
  | call c => exact Or.inr ⟨_, (Option.some.inj h).symm⟩
  | _ =>
      simp only [act, Option.bind_eq_some_iff, Option.map_eq_some_iff] at h
      obtain ⟨op, -, r, -, rfl⟩ := h
      exact Or.inl ⟨r.1, r.2, rfl⟩

theorem Terminator.act_eq_some {t : Terminator} {eval : Operand → M.Value} {a : Action M}
    (h : t.act eval = some a) :
    (∃ l ∈ t.targets, a = .goto l) ∨ ∃ value, t = .ret value ∧ a = .ret (value.map eval) := by
  cases t with
  | jump l => exact Or.inl ⟨l, by simp [targets], (Option.some.inj h).symm⟩
  | branch c l l' =>
      obtain ⟨v, -, rfl⟩ := Option.map_eq_some_iff.1 h
      exact Or.inl ⟨_, by cases v <;> simp [targets], rfl⟩
  | ret value => exact Or.inr ⟨value, rfl, (Option.some.inj h).symm⟩
  | unreachable => cases h

/-- What an activation does next, with the code that makes it do so. -/
theorem Frame.act_eq_some {F : Frame M} {f : Func} {mem : M.Memory} {a : Action M}
    (h : F.act f mem = some a) :
    ((∃ i, f.instr? F.pos = some i) ∧ ((∃ v mem', a = .set v mem') ∨ ∃ e, a = .call e)) ∨
      ∃ b, f.body.find? F.pos.label = some b ∧ b.instrs[F.pos.index]? = none ∧
        ((∃ l ∈ b.terminator.targets, a = .goto l) ∨
          ∃ value, b.terminator = .ret value ∧ a = .ret (value.map F.eval)) := by
  rcases act_cases h with ⟨i, hi, ha⟩ | ⟨b, hb, hend, ha⟩
  · exact Or.inl ⟨⟨i, hi⟩, Instr.act_eq_some ha⟩
  · exact Or.inr ⟨b, hb, hend, Terminator.act_eq_some ha⟩

namespace Inline

/-- `m'` is `m` with the call at `site` inlined. -/
structure Inlining (m m' : Module) (site : CallSite) (id : FuncId) (caller callee f : Func)
    (call : Call) (b : Block) : Prop where
  caller_live : m.funcs.get? site.caller = some caller
  callee_live : m.funcs.get? id = some callee
  ne : id ≠ site.caller
  defined : callee.isDeclaration = false
  resolves : call.callee.resolve? = some id
  result : m' = m.setFunc site.caller f
  inlined : Inlined caller callee f call site.pos b

theorem exists_inlining {m m' : Module} {site : CallSite} {cont : Label}
    (hm : ∀ id f, m.funcs.get? id = some f → f.checkSSA = .ok () ∧ f.Strict)
    (h : m.inlineAt site = .ok (cont, m')) :
    ∃ id caller callee f call b, Inlining m m' site id caller callee f call b := by
  obtain ⟨caller, call, id, callee, f, hi, hs, hm'⟩ := Module.inlineAt_eq_ok h
  obtain ⟨b, hb, hcall, rfl, -, hperm⟩ := splice_eq_ok hs hi.call_at
  obtain ⟨hcaller, hcaller'⟩ := hm _ _ hi.caller_live
  obtain ⟨hcallee, hcallee'⟩ := hm _ _ hi.callee_live
  exact ⟨id, caller, callee, f, call, b, hi.caller_live, hi.callee_live, hi.not_recursive,
    hi.defined, hi.resolves, hm', ⟨⟨hb, hcall, hperm⟩, .of_checkSSA hcaller,
    .of_checkSSA hcallee, hcaller', hcallee'⟩⟩

/-- The activations that wait, before and after inlining.  The caller does not wait at the call
but for the callee inside of it. -/
inductive Stacks (site : CallSite) (id : FuncId) (caller callee : Func) (call : Call) :
    List (Frame M) → List (Frame M) → Prop
  | nil : Stacks site id caller callee call [] []
  | other {F : Frame M} {fs fs' : List (Frame M)} (hF : F.func ≠ site.caller)
      (h : Stacks site id caller callee call fs fs') :
      Stacks site id caller callee call (F :: fs) (F :: fs')
  | outside {F F' : Frame M} {fs fs' : List (Frame M)}
      (hF : Outside caller callee call site F F') (hne : F.pos ≠ site.pos)
      (hi : ∃ i, caller.instr? F.pos = some i) (h : Stacks site id caller callee call fs fs') :
      Stacks site id caller callee call (F :: fs) (F' :: fs')
  | inside {G F F' : Frame M} {fs fs' : List (Frame M)}
      (hF : Inside caller callee call site id G F F') (hi : ∃ i, callee.instr? G.pos = some i)
      (h : Stacks site id caller callee call fs fs') :
      Stacks site id caller callee call (G :: F :: fs) (F' :: fs')

inductive Related (site : CallSite) (id : FuncId) (caller callee : Func) (call : Call) :
    State M → State M → Prop
  | done {value : Option M.Value} {mem : M.Memory} {trace : List (Event M)} :
      Related site id caller callee call (.done value mem trace) (.done value mem trace)
  | other {F : Frame M} {fs fs' : List (Frame M)} {mem : M.Memory} {trace : List (Event M)}
      (hF : F.func ≠ site.caller) (h : Stacks site id caller callee call fs fs') :
      Related site id caller callee call (.running F fs mem trace) (.running F fs' mem trace)
  | outside {F F' : Frame M} {fs fs' : List (Frame M)} {mem : M.Memory} {trace : List (Event M)}
      (hF : Outside caller callee call site F F')
      (h : Stacks site id caller callee call fs fs') :
      Related site id caller callee call (.running F fs mem trace) (.running F' fs' mem trace)
  | inside {G F F' : Frame M} {fs fs' : List (Frame M)} {mem : M.Memory}
      {trace : List (Event M)} (hF : Inside caller callee call site id G F F')
      (h : Stacks site id caller callee call fs fs') :
      Related site id caller callee call (.running G (F :: fs) mem trace)
        (.running F' fs' mem trace)

namespace Inlining

variable {m m' : Module} {site : CallSite} {id : FuncId} {caller callee f : Func} {call : Call}
  {b : Block}

theorem get?_caller (h : Inlining m m' site id caller callee f call b) :
    m'.funcs.get? site.caller = some f := by
  rw [h.result, Module.setFunc, Arena.set, Arena.get?_modify_self, h.caller_live]
  rfl

theorem get?_of_ne (h : Inlining m m' site id caller callee f call b) {id' : FuncId}
    (hne : id' ≠ site.caller) : m'.funcs.get? id' = m.funcs.get? id' := by
  rw [h.result, Module.setFunc, Arena.get?_set_of_ne _ hne]

theorem not_declaration (h : Inlining m m' site id caller callee f call b) :
    f.isDeclaration = false :=
  Func.isDeclaration_of_find? h.inlined.find?_head

/-- The same addresses lead to functions with bodies. -/
theorem bodyAt?_eq (h : Inlining m m' site id caller callee f call b) (v : M.Value) :
    m'.bodyAt? v = m.bodyAt? v := by
  have hany : ∀ id', (m'.funcs.get? id').any (fun g => !g.isDeclaration) =
      (m.funcs.get? id').any fun g => !g.isDeclaration := by
    intro id'
    by_cases hid : id' = site.caller
    · rw [hid, h.get?_caller, h.caller_live]
      simp [h.not_declaration, h.inlined.not_declaration]
    · rw [h.get?_of_ne hid]
  simp only [Module.bodyAt?, hany]

theorem resume_rel (h : Inlining m m' site id caller callee f call b)
    {fs fs' : List (Frame M)} (hs : Stacks site id caller callee call fs fs')
    (value : Option M.Value) (mem : M.Memory) (trace : List (Event M)) :
    Option.Rel (Related site id caller callee call) (m.resume value mem trace fs)
      (m'.resume value mem trace fs') := by
  cases hs with
  | nil => exact .some .done
  | @other F fs fs' hF hs =>
      rw [Module.resume, Module.resume, h.get?_of_ne hF]
      cases m.funcs.get? F.func with
      | none => exact .none
      | some g => exact .some (.other hF hs)
  | outside hF hne hi hs =>
      obtain ⟨i, hi⟩ := hi
      rw [Module.resume, Module.resume, hF.func, hF.func', h.caller_live, h.get?_caller]
      exact .some (.outside (hF.finish h.inlined hne hi _) hs)
  | inside hF hi hs =>
      obtain ⟨i, hi⟩ := hi
      rw [Module.resume, Module.resume, hF.callee_func, hF.func', h.callee_live, h.get?_caller]
      exact .some (.inside (hF.finish h.inlined hi _) hs)

theorem invoke_rel (h : Inlining m m' site id caller callee f call b)
    {fs fs' : List (Frame M)} (hs : Stacks site id caller callee call fs fs') (e : Event M)
    (mem : M.Memory) (trace : List (Event M)) :
    Option.Rel (Related site id caller callee call) (m.invoke e mem trace fs)
      (m'.invoke e mem trace fs') := by
  rw [Module.invoke, Module.invoke, h.bodyAt?_eq]
  cases m.bodyAt? e.target with
  | some id' =>
      by_cases hid : id' = site.caller
      · exact .some (.outside (.start id' e.args hid) hs)
      · exact .some (.other hid hs)
  | none =>
      cases M.external e.target e.args mem with
      | none => exact .none
      | some r => exact h.resume_rel hs _ _ _

theorem bodyAt?_target (h : Inlining m m' site id caller callee f call b) (F : Frame M) :
    m.bodyAt? (F.eval call.callee.target) = some id := by
  have htarget : F.eval call.callee.target = M.func id := by
    have hres := h.resolves
    cases hc : call.callee with
    | direct g | cast g =>
        rw [hc] at hres
        rw [← Option.some.inj hres]
        rfl
    | indirect op =>
        rw [hc] at hres
        cases op with
        | func g =>
            rw [← Option.some.inj hres]
            rfl
        | _ => cases hres
  rw [htarget, Module.bodyAt?, M.funcAt?_func]
  simp [h.callee_live, h.defined]

theorem next_rel_other (h : Inlining m m' site id caller callee f call b) {F : Frame M}
    {fs fs' : List (Frame M)} (hF : F.func ≠ site.caller)
    (hs : Stacks site id caller callee call fs fs') (mem : M.Memory) (trace : List (Event M)) :
    Option.Rel (Related site id caller callee call) (m.next (· == site) (.running F fs mem trace))
      (m'.next (fun _ => false) (.running F fs' mem trace)) := by
  have hsite : ((⟨F.func, F.pos⟩ : CallSite) == site) = false := by
    simpa using fun heq => hF (congrArg CallSite.caller heq)
  rw [Module.next, Module.next, h.get?_of_ne hF]
  cases m.funcs.get? F.func with
  | none => exact .none
  | some g =>
      simp only [Option.bind_some, hsite]
      cases F.act g mem with
      | none => exact .none
      | some a =>
          cases a with
          | set v mem' => exact h.resume_rel (.other hF hs) _ _ _
          | call e => exact h.invoke_rel (.other hF hs) _ _ _
          | ret v => exact h.resume_rel hs _ _ _
          | goto l =>
              simp only [Option.bind_some, Frame.enter, Option.map_map]
              cases g.body.find? l with
              | none => exact .none
              | some b₀ => exact .some (.other hF hs)

/-- At the inlined call the caller goes on in the copy. -/
theorem next_rel_outside (h : Inlining m m' site id caller callee f call b) {F F' : Frame M}
    {fs fs' : List (Frame M)} (hF : Outside caller callee call site F F')
    (hs : Stacks site id caller callee call fs fs') (mem : M.Memory) (trace : List (Event M)) :
    Option.Rel (Related site id caller callee call) (m.next (· == site) (.running F fs mem trace))
      (m'.next (fun _ => false) (.running F' fs' mem trace)) := by
  rw [Module.next, Module.next, hF.func, hF.func', h.caller_live, h.get?_caller]
  simp only [Option.bind_some]
  by_cases hpos : F.pos = site.pos
  · obtain ⟨hact, l, G', hact', henter, hG⟩ := hF.enter_copy id h.inlined h.defined hpos mem
    rw [hact, hact']
    simp only [Option.bind_some, henter, Option.map_some, Module.invoke, h.bodyAt?_target, hpos,
      BEq.rfl, if_true]
    exact .some (.inside hG hs)
  · have hsite : ((⟨site.caller, F.pos⟩ : CallSite) == site) = false := by
      simpa using fun heq => hpos (congrArg CallSite.pos heq)
    rw [hF.act h.inlined hpos, hsite]
    cases hact : F.act caller mem with
    | none => exact .none
    | some a =>
        simp only [Option.bind_some]
        rcases Frame.act_eq_some hact with ⟨hi, ⟨v, mem', rfl⟩ | ⟨e, rfl⟩⟩ |
          ⟨b₀, hb₀, hend, ⟨l, hl, rfl⟩ | ⟨value, -, rfl⟩⟩
        · exact h.resume_rel (.outside hF hpos hi hs) _ _ _
        · exact h.invoke_rel (.outside hF hpos hi hs) _ _ _
        · obtain ⟨G, G', hG, hG', hout⟩ := hF.enter h.inlined hb₀ hend hl
          simp only [hG, hG']
          exact .some (.outside hout hs)
        · exact h.resume_rel hs _ _ _

/-- Where the callee returns, the copy goes on behind the call. -/
theorem next_rel_inside (h : Inlining m m' site id caller callee f call b) {G F F' : Frame M}
    {fs fs' : List (Frame M)} (hF : Inside caller callee call site id G F F')
    (hs : Stacks site id caller callee call fs fs') (mem : M.Memory) (trace : List (Event M)) :
    Option.Rel (Related site id caller callee call)
      (m.next (· == site) (.running G (F :: fs) mem trace))
      (m'.next (fun _ => false) (.running F' fs' mem trace)) := by
  have hsite : ((⟨id, G.pos⟩ : CallSite) == site) = false := by
    simpa using fun heq => h.ne (congrArg CallSite.caller heq)
  rw [Module.next, Module.next, hF.callee_func, hF.func', h.callee_live, h.get?_caller]
  simp only [Option.bind_some, hF.act h.inlined h.defined, hsite]
  cases hact : G.act callee mem with
  | none => exact .none
  | some a =>
      simp only [Option.map_some, Option.bind_some]
      rcases Frame.act_eq_some hact with ⟨hi, ⟨v, mem', rfl⟩ | ⟨e, rfl⟩⟩ |
        ⟨b₀, hb₀, hend, ⟨l, hl, rfl⟩ | ⟨value, hret, rfl⟩⟩
      · exact h.resume_rel (.inside hF hi hs) _ _ _
      · exact h.invoke_rel (.inside hF hi hs) _ _ _
      · obtain ⟨G₁, F₁, hG₁, hF₁, hin⟩ := hF.enter h.inlined h.defined hb₀ hend hl
        simp only [Splice.action, Action.mapLabel, hG₁, hF₁]
        exact .some (.inside hin hs)
      · have hpos := hF.reached.eq_end h.inlined.callee_checked h.defined hb₀ hend
        obtain ⟨F₁, hF₁, hout⟩ := hF.ret h.inlined hb₀ (congrArg Position.index hpos) hret
        simp only [Splice.action, copy, hF₁, Module.resume, hF.func, h.caller_live]
        exact .some (.outside hout hs)

/-- Both take corresponding steps; the inlined call is the one that is not traced before. -/
theorem next_rel (h : Inlining m m' site id caller callee f call b) (s s' : State M)
    (hs : Related site id caller callee call s s') :
    Option.Rel (Related site id caller callee call) (m.next (· == site) s)
      (m'.next (fun _ => false) s') := by
  cases hs with
  | done => exact .none
  | other hF hs => exact h.next_rel_other hF hs _ _
  | outside hF hs => exact h.next_rel_outside hF hs _ _
  | inside hF hs => exact h.next_rel_inside hF hs _ _

end Inlining

end Inline

/-- A call of any function ends the same way, with the same memory and the same calls but for the
inlined one, before and after inlining. -/
theorem inlineAt_ends_iff (M : Machine) {m m' : Module} {site : CallSite} {cont : Label}
    (hm : ∀ id f, m.funcs.get? id = some f → f.checkSSA = .ok () ∧ f.Strict)
    (h : m.inlineAt site = .ok (cont, m')) (id : FuncId) (args : List M.Value) (mem : M.Memory)
    (value : Option M.Value) (mem' : M.Memory) (trace : List (Event M)) :
    m.Ends (· == site) id args mem value mem' trace ↔
      m'.Ends (fun _ => false) id args mem value mem' trace := by
  obtain ⟨id', caller, callee, f, call, b, hi⟩ := Inline.exists_inlining hm h
  have hstart : Inline.Related site id' caller callee call
      (.running (.start id args) [] mem []) (.running (.start id args) [] mem []) := by
    by_cases hid : id = site.caller
    · exact .outside (.start id args hid) .nil
    · exact .other hid .nil
  constructor
  · intro hends
    obtain ⟨t, ht, hrel⟩ := exists_of_lockstep hi.next_rel hstart hends
    cases hrel
    exact ht
  · intro hends
    obtain ⟨t, ht, hrel⟩ := exists_of_lockstep (R := flip (Inline.Related site id' caller callee
      call)) (fun s' s hs => rel_flip (hi.next_rel s s' hs)) hstart hends
    cases hrel
    exact ht

namespace inlinedCall

def increment : Func where
  name := "increment"
  params := [⟨none, .int 32⟩]
  retTy := .int 32
  body := .ofList [(.entry,
    ⟨[.arith .add 0 (.int 32) (.arg 0) (.imm ⟨32, 1⟩)], .ret (some (.reg 0))⟩)]

/-- Doubles its parameter after incrementing it. -/
def caller : Func where
  name := "caller"
  params := [⟨none, .int 32⟩]
  retTy := .int 32
  body := .ofList [(.entry,
    ⟨[.call ⟨some 0, .int 32, .direct ⟨2, 1⟩, [.arg 0], .c⟩,
      .arith .add 1 (.int 32) (.reg 0) (.reg 0)], .ret (some (.reg 1))⟩)]

def module : Module where
  funcs := .ofList [caller, increment]

def site : CallSite := ⟨⟨1, 1⟩, ⟨.entry, 0⟩⟩

def inlined : Module := ((module.inlineAt site).toOption.map (·.2)).getD module

def machine : Machine := byteMachine (fun _ => 0) fun _ _ _ => none

theorem strict (id : FuncId) (f : Func) (h : module.funcs.get? id = some f) :
    f.checkSSA = .ok () ∧ f.Strict := by
  have hmem : f ∈ module.funcs.values :=
    List.mem_map_of_mem (f := Prod.snd) (Arena.mem_entries_iff.2 h)
  have hvalues : module.funcs.values = [caller, increment] := rfl
  rw [hvalues] at hmem
  rcases List.mem_cons.1 hmem with rfl | hmem
  · exact ⟨by decide +kernel, .of_straight rfl rfl (by decide) (by decide) (by decide)
      (by decide)⟩
  · rw [List.mem_singleton.1 hmem]
    exact ⟨by decide +kernel, .of_straight rfl rfl (by decide) (by decide) (by decide)
      (by decide)⟩

end inlinedCall

open inlinedCall in
theorem inlinedCall_ends : module.inlineAt site = .ok (1, inlined) ∧
    inlined.Ends (M := machine) (fun _ => false) ⟨1, 1⟩ [.bits 32 4] (fun _ => 0)
      (some (.bits 32 10)) (fun _ => 0) [] := by
  have hok : module.inlineAt site = .ok (1, inlined) := rfl
  have hends : module.Ends (M := machine) (· == site) ⟨1, 1⟩ [.bits 32 4]
      (fun _ => 0) (some (.bits 32 10)) (fun _ => 0) [] := reflTransGen_of_iterate 5 rfl
  exact ⟨hok, (inlineAt_ends_iff machine strict hok _ _ _ _ _ _).1 hends⟩

end KernelIR
