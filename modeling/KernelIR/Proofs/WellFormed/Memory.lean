import KernelIR.Proofs.WellFormed.Function
import Mathlib

/-!
# The scope of memory loops

The blocks of a loop define fresh registers, read what the call was given and what they define, and
make no calls, so that a body stays well formed when a call that nobody reads becomes a loop.
-/

namespace KernelIR.MemCall

variable {m : Module} {c : MemCall} {live : Operand → Prop} {params : Nat} {code : List Instr}
  {exits : List Operand} {base : Reg}

theorem inScope_const (c : MemCall) {live : Operand → Prop} (hlive : ∀ k, live (.imm k))
    (hundefined : live .undefined) (params : Nat) (dests : List Reg) (value : Nat) :
    (c.const value).InScope live params dests := by
  rw [const]
  split
  · exact hlive _
  · exact hundefined

theorem const_ne_reg (c : MemCall) (value : Nat) (r : Reg) : c.const value ≠ .reg r := by
  rw [const]
  split <;> simp

/-- New code of a loop: its results are registers from `base` up to `top`, it makes no calls, its
branches are on its own results, and it reads what the call was given and its own results, older
ones unless in a phi. -/
structure Fresh (c : MemCall) (base top : Reg) (new : List Instr) (newExits : List Operand) :
    Prop where
  le : base ≤ top
  nodup : (destsOf new).Nodup
  between : ∀ r ∈ destsOf new, base ≤ r ∧ r < top
  mentions : ∀ i ∈ new, ∀ op ∈ i.mentions, op ∈ [c.dst, c.source, c.len] ∨
    (∃ value, op = c.const value) ∨ ∃ r ∈ destsOf new, op = .reg r ∧
      (i.isPhi = false → ∀ d, i.dest? = some d → r < d)
  calls : ∀ call, .call call ∉ new
  exits : ∀ op ∈ newExits, ∃ r ∈ destsOf new, op = .reg r

variable {top upper : Reg} {new new' : List Instr} {newExits newExits' : List Operand}

theorem Fresh.append (h : c.Fresh base top new newExits) (h' : c.Fresh top upper new' newExits') :
    c.Fresh base upper (new ++ new') (newExits ++ newExits') := by
  have hleft : ∀ r ∈ destsOf new, r ∈ destsOf (new ++ new') := fun r hr => by
    rw [destsOf_append]
    exact List.mem_append_left _ hr
  have hright : ∀ r ∈ destsOf new', r ∈ destsOf (new ++ new') := fun r hr => by
    rw [destsOf_append]
    exact List.mem_append_right _ hr
  refine ⟨Nat.le_trans h.le h'.le, ?_, fun r hr => ?_, fun i hi op hop => ?_, fun call hc => ?_,
    fun op hop => ?_⟩
  · rw [destsOf_append]
    refine List.nodup_append.2 ⟨h.nodup, h'.nodup, fun r hr r' hr' heq => ?_⟩
    exact absurd (h.between r hr).2 (Nat.not_lt.2 (heq ▸ (h'.between r' hr').1))
  · rw [destsOf_append] at hr
    rcases List.mem_append.1 hr with hr | hr
    · exact ⟨(h.between r hr).1, Nat.lt_of_lt_of_le (h.between r hr).2 h'.le⟩
    · exact ⟨Nat.le_trans h.le (h'.between r hr).1, (h'.between r hr).2⟩
  · rcases List.mem_append.1 hi with hi | hi
    · exact (h.mentions i hi op hop).imp_right (Or.imp_right fun ⟨r, hr, hop⟩ =>
        ⟨r, hleft r hr, hop⟩)
    · exact (h'.mentions i hi op hop).imp_right (Or.imp_right fun ⟨r, hr, hop⟩ =>
        ⟨r, hright r hr, hop⟩)
  · rcases List.mem_append.1 hc with hc | hc
    · exact h.calls call hc
    · exact h'.calls call hc
  · rcases List.mem_append.1 hop with hop | hop
    · obtain ⟨r, hr, hop⟩ := h.exits op hop
      exact ⟨r, hleft r hr, hop⟩
    · obtain ⟨r, hr, hop⟩ := h'.exits op hop
      exact ⟨r, hright r hr, hop⟩

/-- What fresh code reads is there when the call was given what is there. -/
theorem Fresh.inScope (h : c.Fresh base top new newExits) (hlive : ∀ k, live (.imm k))
    (hundefined : live .undefined)
    (hgiven : ∀ op ∈ [c.dst, c.source, c.len], op.InScope live params (destsOf code)) :
    (∀ i ∈ new, ∀ op ∈ i.mentions, op.InScope live params (destsOf (new ++ code))) ∧
      ∀ op ∈ newExits, op.InScope live params (destsOf (new ++ code)) := by
  have hnew : ∀ r ∈ destsOf new, r ∈ destsOf (new ++ code) := fun r hr => by
    rw [destsOf_append]
    exact List.mem_append_left _ hr
  refine ⟨fun i hi op hop => ?_, fun op hop => ?_⟩
  · rcases h.mentions i hi op hop with hop | ⟨value, rfl⟩ | ⟨r, hr, rfl, -⟩
    · refine (hgiven op hop).mono fun r _ hr => ?_
      rw [destsOf_append]
      exact List.mem_append_right _ hr
    · exact c.inScope_const hlive hundefined params _ value
    · exact hnew r hr
  · obtain ⟨r, hr, rfl⟩ := h.exits op hop
    exact hnew r hr

/-- Fresh code may come in where the call was. -/
theorem Fresh.scoped (h : c.Fresh base top new newExits) (hcode : Scoped live params code exits)
    (hbase : ∀ r ∈ destsOf code, r < base) (hlive : ∀ k, live (.imm k))
    (hundefined : live .undefined)
    (hgiven : ∀ op ∈ [c.dst, c.source, c.len], op.InScope live params (destsOf code)) :
    Scoped live params (new ++ code) (newExits ++ exits) := by
  obtain ⟨hmentions, hexits⟩ := h.inScope hlive hundefined hgiven
  exact hcode.append hbase h.nodup (fun r hr => (h.between r hr).1) hmentions hexits

theorem Fresh.wellScoped (h : c.Fresh base top new newExits)
    (hcode : WellScoped m.Live params code exits) (hbase : ∀ r ∈ destsOf code, r < base)
    (hgiven : ∀ op ∈ [c.dst, c.source, c.len], op.InScope m.Live params (destsOf code)) :
    WellScoped m.Live params (new ++ code) (newExits ++ exits) := by
  obtain ⟨hmentions, hexits⟩ := h.inScope (fun _ => trivial) trivial hgiven
  refine hcode.append hbase h.nodup (fun r hr => (h.between r hr).1) hmentions hexits
    (fun i hi hphi d hd s hs => ?_) fun call hcall => absurd hcall (h.calls call)
  rcases h.mentions i hi _ hs with hop | ⟨value, hop⟩ | ⟨r, -, hop, hlt⟩
  · have hin : s ∈ destsOf code := hgiven _ hop
    exact Nat.lt_of_lt_of_le (hbase s hin) (h.between d (mem_destsOf.2 ⟨i, hi, hd⟩)).1
  · exact absurd hop.symm (const_ne_reg c value s)
  · cases hop
    exact hlt hphi d hd

theorem fresh_icmp (c : MemCall) (base : Reg) (rel : Comparison) (lhs rhs : Operand)
    (hlhs : lhs ∈ [c.dst, c.source, c.len]) (hrhs : rhs ∈ [c.dst, c.source, c.len] ∨
      ∃ value, rhs = c.const value) :
    c.Fresh base (base + 1) [.icmp base rel lhs rhs] [.reg base] := by
  refine ⟨Nat.le_succ _, List.nodup_singleton _, ?_, fun i hi op hop => ?_, by simp, ?_⟩
  · simp [destsOf, Instr.dest?]
  · obtain rfl := List.mem_singleton.1 hi
    simp only [Instr.mentions, Instr.operands, List.mem_cons, List.not_mem_nil, or_false] at hop
    rcases hop with rfl | rfl
    · exact Or.inl hlhs
    · exact hrhs.imp_right Or.inl
  · simp [destsOf, Instr.dest?]

/-- The registers in which the loop at `base` reaches a byte, in the order of their code. -/
def byteRegs (c : MemCall) (base : Reg) : List Reg :=
  match c.kind with
  | .copy | .move => [base + 4, base + 5, base + 3]
  | .set => [base + 3]

theorem destsOf_forwardLoop (c : MemCall) (base : Reg) (label pred exit : Label) :
    destsOf ((c.forwardLoop base label pred exit).instrs.map Instr.bare) =
      base :: c.byteRegs base ++ [base + 1, base + 2] := by
  rw [forwardLoop, transferByte, byteRegs]
  cases c.kind <;> rfl

theorem fresh_forwardLoop (c : MemCall) (base : Reg) (label pred exit : Label) :
    c.Fresh base (base + c.kind.loopRegs)
      ((c.forwardLoop base label pred exit).instrs.map Instr.bare) [.reg (base + 2)] := by
  have hdests := c.destsOf_forwardLoop base label pred exit
  refine ⟨Nat.le_add_right _ _, ?_, ?_, ?_, ?_, ?_⟩
  · rw [hdests, byteRegs]
    cases c.kind <;> simp
  · rw [hdests, byteRegs]
    cases c.kind <;> simp [MemIntrinsic.loopRegs]
  · cases hk : c.kind <;> simp [forwardLoop, transferByte, hk, destsOf, Instr.bare, Instr.dest?,
      Instr.mapPhiLabels, Instr.mentions, Instr.operands, Instr.isPhi]
  · cases hk : c.kind <;> simp [forwardLoop, transferByte, hk, Instr.bare, Instr.mapPhiLabels]
  · rw [hdests]
    simp

theorem destsOf_backwardLoop (c : MemCall) (base : Reg) (label pred exit : Label) :
    destsOf ((c.backwardLoop base label pred exit).instrs.map Instr.bare) =
      base :: (base + 1) :: c.byteRegs base ++ [base + 2] := by
  rw [backwardLoop, transferByte, byteRegs]
  cases c.kind <;> rfl

theorem fresh_backwardLoop (c : MemCall) (base : Reg) (label pred exit : Label) :
    c.Fresh base (base + c.kind.loopRegs)
      ((c.backwardLoop base label pred exit).instrs.map Instr.bare) [.reg (base + 2)] := by
  have hdests := c.destsOf_backwardLoop base label pred exit
  refine ⟨Nat.le_add_right _ _, ?_, ?_, ?_, ?_, ?_⟩
  · rw [hdests, byteRegs]
    cases c.kind <;> simp
  · rw [hdests, byteRegs]
    cases c.kind <;> simp [MemIntrinsic.loopRegs]
  · cases hk : c.kind <;> simp [backwardLoop, transferByte, hk, destsOf, Instr.bare, Instr.dest?,
      Instr.mapPhiLabels, Instr.mentions, Instr.operands, Instr.isPhi]
  · cases hk : c.kind <;> simp [backwardLoop, transferByte, hk, Instr.bare, Instr.mapPhiLabels]
  · rw [hdests]
    simp

/-- The code of the guard and the blocks of a loop is fresh. -/
theorem fresh_blocks (c : MemCall) (base : Reg) (header first exit : Label) :
    c.Fresh base (base + c.kind.regCount) (.icmp base .eq c.len (c.const 0) ::
        codeOf (c.blocks (base + 1) header first exit))
      (.reg base :: exitsOf (c.blocks (base + 1) header first exit)) := by
  have hguard := c.fresh_icmp base .eq c.len (c.const 0) (by simp) (Or.inr ⟨0, rfl⟩)
  have hsingle := hguard.append (c.fresh_forwardLoop (base + 1) first header exit)
  rw [blocks]
  cases hk : c.kind with
  | copy | set =>
      simp only [codeOf_cons, codeOf_nil, exitsOf_cons, exitsOf_nil, List.append_nil]
      rw [hk, Nat.add_assoc] at hsingle
      exact hsingle
  | move =>
      have hdirection := c.fresh_icmp (base + 1) .ult c.source c.dst (by simp) (Or.inl (by simp))
      have hbackward := c.fresh_backwardLoop (base + 1 + 1) (first + 1) first exit
      have hforward := c.fresh_forwardLoop (base + 1 + 1 + 6) (first + 2) first exit
      rw [hk] at hbackward hforward
      simp only [codeOf_cons, codeOf_nil, exitsOf_cons, exitsOf_nil, List.append_nil]
      exact hguard.append (hdirection.append (hbackward.append hforward))

variable {f f' : Func} {pos : Position} {call : Call}

/-- The code of the body: the guard and the loop come in, and nothing else changes. -/
theorem code_cutBlocks {opened : Func} {b : Block} {blocks : List (Label × Block)} {guard : Instr}
    {t : Terminator} (hp : opened.body.entries.Perm (f.openedBlocks pos b))
    (hguard : guard.bare = guard)
    (hp' : f'.body.entries.Perm (blocks ++ f.cutBlocks pos.label
      (b.instrs.take pos.index ++ [guard]) (b.instrs.drop (pos.index + 1)) t b.terminator)) :
    f'.code.Perm ((guard :: codeOf blocks) ++ opened.code) ∧
      f'.exits.Perm ((t.operands ++ exitsOf blocks) ++ opened.exits) := by
  have hcode := Func.code_perm hp
  have hexits := Func.exits_perm hp
  have hcode' := Func.code_perm hp'
  have hexits' := Func.exits_perm hp'
  rw [Func.openedBlocks, Func.code_followTail] at hcode
  rw [Func.openedBlocks, Func.exits_followTail] at hexits
  rw [codeOf_append, Func.cutBlocks, Func.code_followTail] at hcode'
  rw [exitsOf_append, Func.cutBlocks, Func.exits_followTail] at hexits'
  simp only [codeOf_cons, exitsOf_cons, List.map_append, List.map_cons, List.map_nil, hguard,
    Terminator.operands, List.nil_append, List.append_assoc] at hcode hexits hcode' hexits'
  constructor
  · refine hcode'.trans ?_
    refine List.Perm.trans ?_ (hcode.symm.append_left _)
    simp only [List.cons_append, List.nil_append]
    exact ((List.perm_middle).append_left _).trans List.perm_middle
  · refine hexits'.trans (List.Perm.trans ?_ (hexits.symm.append_left _))
    simp only [List.append_assoc]
    exact List.perm_append_comm_assoc _ _ _

/-- The call goes, and fresh code comes in its place. -/
theorem code_expand (hcall : f.callAt pos = .ok call) (h : c.expand f pos = .ok f') :
    ∃ (opened : Func) (new : List Instr) (newExits : List Operand),
      c.Fresh opened.nextReg (opened.nextReg + c.kind.regCount) new newExits ∧
      f.code.Perm (.call call :: opened.code) ∧ f.exits.Perm opened.exits ∧
        f'.code.Perm (new ++ opened.code) ∧ f'.exits.Perm (newExits ++ opened.exits) := by
  obtain ⟨b, hb, hi⟩ := Func.callAt_eq_ok_iff.1 hcall
  obtain ⟨opened, hp, -, hp'⟩ := entries_expand hb h
  obtain ⟨hcode, hexits⟩ := Func.code_opened hb hi hp
  obtain ⟨hcode', hexits'⟩ := code_cutBlocks hp rfl hp'
  exact ⟨opened, _, _, c.fresh_blocks opened.nextReg pos.label (f.nextLabel + 1) f.nextLabel,
    hcode, hexits, hcode', hexits'⟩

theorem labelled_expand (hf : f.Labelled) (hcall : f.callAt pos = .ok call)
    (h : c.expand f pos = .ok f') : f'.Labelled := by
  obtain ⟨b, hb, -⟩ := Func.callAt_eq_ok_iff.1 hcall
  exact ⟨fun _ => contains_expand hb h (hf.contains_entry hb), closed_expand hf.closed hb h⟩

theorem params_expand (hcall : f.callAt pos = .ok call) (h : c.expand f pos = .ok f') :
    f'.params = f.params := by
  obtain ⟨b, hb, -⟩ := Func.callAt_eq_ok_iff.1 hcall
  obtain ⟨-, -, hbody, -⟩ := entries_expand hb h
  rw [hbody]

/-- What a call is given is there without the call, as the call has no result. -/
theorem inScope_args (h : Scoped live params (.call call :: code) exits)
    (hdest : call.dest = none) :
    ∀ op ∈ call.args, op.InScope live params (destsOf code) := by
  intro op hop
  refine (h.mentions _ List.mem_cons_self op (List.mem_cons_of_mem _ hop)).mono
    fun r _ hr => mem_destsOf_cons hr ?_
  simp [Instr.dest?, hdest]

/-- A call that nobody reads the result of may become a loop. -/
theorem wellFormed_expand (hf : f.WellFormed m) (hcall : f.callAt pos = .ok call)
    (hdest : call.dest = none) (hargs : ∀ op ∈ [c.dst, c.source, c.len], op ∈ call.args)
    (h : c.expand f pos = .ok f') : f'.WellFormed m := by
  obtain ⟨opened, new, newExits, hfresh, hcode, hexits, hcode', hexits'⟩ := code_expand hcall h
  have hscoped := hf.code.of_perm hcode hexits
  have hopened : WellScoped m.Live f.params.length opened.code opened.exits :=
    hscoped.drop fun r hr => by simp [Instr.dest?, hdest] at hr
  refine ⟨labelled_expand hf.labels hcall h, ?_⟩
  rw [params_expand hcall h]
  refine (hfresh.wellScoped hopened (Func.lt_nextReg_of_code (List.Perm.refl _)) fun op hop =>
    inScope_args hscoped.toScoped hdest op (hargs op hop)).of_perm hcode'.symm hexits'.symm

/-- The call goes, and a loop makes no calls. -/
theorem calls_expand (hcall : f.callAt pos = .ok call) (h : c.expand f pos = .ok f') :
    (f.calls.map (·.2)).Perm (call :: f'.calls.map (·.2)) := by
  obtain ⟨opened, new, newExits, hfresh, hcode, -, hcode', -⟩ := code_expand hcall h
  have hnew : new.filterMap Instr.call? = [] := by
    refine List.filterMap_eq_nil_iff.2 fun i hi => ?_
    cases i with
    | call c' => exact absurd hi (hfresh.calls c')
    | _ => rfl
  have hcalls := hcode'.filterMap Instr.call?
  rw [List.filterMap_append, hnew, List.nil_append] at hcalls
  rw [Func.map_calls_eq_code, Func.map_calls_eq_code]
  exact (hcode.filterMap Instr.call?).trans (hcalls.symm.cons call)

theorem hasCall_expand (hcall : f.callAt pos = .ok call) (h : c.expand f pos = .ok f')
    {call' : Call} (hc : f'.HasCall call') : f.HasCall call' := by
  rw [Func.hasCall_iff_mem_calls] at hc ⊢
  exact (calls_expand hcall h).mem_iff.2 (List.mem_cons_of_mem _ hc)

end KernelIR.MemCall
