import KernelIR.Proofs.Inline.Blocks
import KernelIR.Proofs.WellFormed.Function
import Mathlib

/-!
# The body after inlining, in full

Inlining a call is described without the numbers that it counts from: there is a renaming of the
callee's registers and labels to unused ones, and block by block the body of the caller is what it
was, with the copied blocks between the two halves of the block of the call.
-/

namespace KernelIR

namespace Inline

/-- New names for the registers and labels of a callee. -/
structure Renaming where
  reg : Reg → Reg
  label : Label → Label

namespace Renaming

/-- A parameter becomes what the call is given for it. -/
def operand (ρ : Renaming) (args : List Operand) : Operand → Operand
  | .reg r => .reg (ρ.reg r)
  | .arg index => args[index]?.getD .undefined
  | op => op

def instr (ρ : Renaming) (args : List Operand) (i : Instr) : Instr :=
  ((i.mapDest ρ.reg).mapOperands (ρ.operand args)).mapPhiLabels ρ.label

/-- A return becomes a jump to what follows the call. -/
def terminator (ρ : Renaming) (args : List Operand) (cont : Label) : Terminator → Terminator
  | .ret _ => .jump cont
  | t => (t.mapOperands (ρ.operand args)).mapTargets ρ.label

/-- What the blocks of the callee return, under their new labels. -/
def returns (ρ : Renaming) (args : List Operand) (callee : Func) : List (Label × Operand) :=
  callee.body.entries.filterMap fun e =>
    match e.2.terminator with
    | .ret value => some (ρ.label e.1, (value.map (ρ.operand args)).getD .undefined)
    | _ => none

end Renaming

/-- What becomes of an instruction of the caller in block `l` when the block `old`, which leads to
`targets`, goes on as `new`: phis name the block that they are entered from, and the result of the
call is read as `σ` says. -/
def kept (σ : Operand → Operand) (targets : List Label) (old new l : Label) (i : Instr) : Instr :=
  (if l ∈ targets then i.mapPhiLabels (Func.relabel old new) else i).mapOperands σ

/-- `f` is `caller` with the body of `callee`, renamed by `ρ`, in the place of the call at `pos`,
which stood in block `b`; control goes on at `cont`. -/
structure Replaces (caller callee f : Func) (call : Call) (pos : Position) (b : Block)
    (cont : Label) (ρ : Renaming) : Prop where
  block : caller.body.find? pos.label = some b
  call_at : b.instrs[pos.index]? = some (.call call)
  header : f = { caller with body := f.body }
  /-- The old labels are there, and new ones for what follows the call and for each copied block;
  no label is there twice. -/
  labels : f.body.keys.Perm (caller.body.keys ++ cont :: callee.body.keys.map ρ.label)
  fresh_labels : ∀ l ∈ cont :: callee.body.keys.map ρ.label, caller.body.contains l = false
  injective : Function.Injective ρ.reg
  fresh_regs : ∀ r, ρ.reg r ∉ caller.dests ∧ ρ.reg r ∉ caller.reads
  /-- The call gives all parameters that are read. -/
  given : ∀ l b₀, callee.body.find? l = some b₀ → ∀ index, .arg index ∈ b₀.operands →
    index < call.args.length
  head : f.body.find? pos.label = some
    ⟨(b.instrs.take pos.index).map (kept (resultRead call (ρ.returns call.args callee))
        b.terminator.targets pos.label cont pos.label),
      .jump (ρ.label .entry)⟩
  tail : f.body.find? cont = some
    ⟨(resultPhis call (ρ.returns call.args callee)).map .phi ++
        (b.instrs.drop (pos.index + 1)).map
          (Instr.mapOperands (resultRead call (ρ.returns call.args callee))),
      b.terminator.mapOperands (resultRead call (ρ.returns call.args callee))⟩
  other : ∀ l b₀, l ≠ pos.label → caller.body.find? l = some b₀ → f.body.find? l = some
    ⟨b₀.instrs.map (kept (resultRead call (ρ.returns call.args callee))
        b.terminator.targets pos.label cont l),
      b₀.terminator.mapOperands (resultRead call (ρ.returns call.args callee))⟩
  copied : ∀ l b₀, callee.body.find? l = some b₀ → f.body.find? (ρ.label l) = some
    ⟨b₀.instrs.map (ρ.instr call.args), ρ.terminator call.args cont b₀.terminator⟩

variable {caller callee f : Func} {call : Call} {pos : Position} {b : Block}

/-- The names that a copy gets. -/
def newNames (caller : Func) (call : Call) (callee : Func) : Renaming where
  reg := (copy caller call callee).reg
  label := (copy caller call callee).label

theorem operand_newNames (caller : Func) (call : Call) (callee : Func) :
    (newNames caller call callee).operand call.args = (copy caller call callee).operand := by
  funext op
  cases op <;> rfl

theorem instr_newNames (caller : Func) (call : Call) (callee : Func) :
    (newNames caller call callee).instr call.args = (copy caller call callee).instr := by
  funext i
  rw [Renaming.instr, operand_newNames]
  rfl

theorem terminator_newNames (caller : Func) (call : Call) (callee : Func) :
    (newNames caller call callee).terminator call.args caller.nextLabel =
      (copy caller call callee).terminator := by
  funext t
  cases t <;> simp only [Renaming.terminator, operand_newNames] <;> rfl

theorem returns_newNames (caller : Func) (call : Call) (callee : Func) :
    (newNames caller call callee).returns call.args callee =
      (copy caller call callee).returns := by
  rw [Renaming.returns, operand_newNames]
  rfl

theorem callerInstr_eq_kept (l : Label) : callerInstr caller callee call pos b l =
    kept (subst caller callee call) b.terminator.targets pos.label caller.nextLabel l := by
  funext i
  rw [callerInstr, kept, follow]
  split <;> simp

namespace Spliced

theorem keys_perm (h : Spliced caller callee f call pos b) : f.body.keys.Perm
    (caller.body.keys ++
      caller.nextLabel :: callee.body.keys.map (copy caller call callee).label) := by
  have hold : caller.body.keys.Perm
      (pos.label :: (caller.body.erase pos.label).entries.map (·.1)) :=
    (OrderedMap.entries_perm_of_find? h.block).map Prod.fst
  have hnew : f.body.keys.Perm ((joined caller call callee pos b).map (·.1)) := by
    have hp := h.entries.map (·.1)
    rwa [keys_bindResult] at hp
  have hjoined : (joined caller call callee pos b).map (·.1) =
      callee.body.keys.map (copy caller call callee).label ++ (pos.label :: caller.nextLabel ::
        (caller.body.erase pos.label).entries.map (·.1)) := by
    rw [joined, List.map_append, Splice.fst_blocks, List.map_map]
    rfl
  rw [hjoined] at hnew
  refine hnew.trans (List.perm_append_comm.trans ?_)
  refine List.Perm.trans ?_ (hold.symm.append_right _)
  simp only [List.cons_append]
  exact (List.perm_middle.symm.cons _)

theorem replaces (h : Spliced caller callee f call pos b)
    (hheader : f = { caller with body := f.body }) (hcaller : caller.Checked)
    (hcallee : callee.Checked) (harity : callee.params.length = call.args.length)
    (hself : ∀ d, call.dest = some d → .reg d ∉ call.args) :
    Replaces caller callee f call pos b caller.nextLabel (newNames caller call callee) := by
  have hfresh : ∀ l, caller.nextLabel ≤ l → caller.body.contains l = false := fun l hl => by
    rw [OrderedMap.contains, Func.find?_of_nextLabel_le hl]
    rfl
  refine ⟨h.block, h.call_at, hheader, h.keys_perm, fun l hl => hfresh l ?_,
    fun r r' hr => Nat.add_left_cancel hr, fun r => ⟨fun hr => ?_, fun hr => ?_⟩,
    fun l b₀ hb₀ index hop => harity ▸ hcallee.lt_params hb₀ hop, ?_, ?_, fun l b₀ hl hb₀ => ?_,
    fun l b₀ hb₀ => ?_⟩
  · rcases List.mem_cons.1 hl with rfl | hl
    · exact Nat.le_refl _
    · obtain ⟨l, -, rfl⟩ := List.mem_map.1 hl
      exact Nat.le_of_succ_le ((copy caller call callee).le_label l)
  · exact absurd (Func.lt_nextReg_of_mem_dests hr) (Nat.not_lt.2 (Nat.le_add_right _ _))
  · exact absurd (Func.lt_nextReg_of_mem_reads hr) (Nat.not_lt.2 (Nat.le_add_right _ _))
  · rw [returns_newNames, ← callerInstr_eq_kept]
    exact h.find?_head
  · -- What follows the call is no target of its own end, so that its phis name the same blocks.
    have htail : callerInstr caller callee call pos b caller.nextLabel =
        Instr.mapOperands (subst caller callee call) := by
      funext i
      rw [callerInstr, follow, if_neg (hcaller.nextLabel_not_mem_targets h.block),
        Instr.mapPhiLabels_id]
    rw [returns_newNames, h.find?_tail, htail]
  · rw [returns_newNames, ← callerInstr_eq_kept]
    exact h.find?_other hl hb₀
  · rw [instr_newNames, terminator_newNames]
    exact h.find?_copy hself hb₀

end Spliced

end Inline

/-- If inlining succeeds, in a caller in single-assignment form and at a call that does not read
its own result, the caller stays in single-assignment form, its body is the old one with that of the
callee in the place of the call, and nothing else has changed. -/
theorem inlineAt_replaces {m m' : Module} {site : CallSite} {caller : Func} {call : Call}
    {cont : Label} (hlive : m.funcs.get? site.caller = some caller)
    (hcheck : caller.checkSSA = .ok ()) (hcall : caller.callAt site.pos = .ok call)
    (hself : ∀ d, call.dest = some d → d ∉ (Instr.call call).reads)
    (h : m.inlineAt site = .ok (cont, m')) :
    ∃ id callee f b ρ, call.callee.resolve? = some id ∧ m.funcs.get? id = some callee ∧
      m' = { m with funcs := m'.funcs } ∧ m.Updated site.caller f m' ∧ f.checkSSA = .ok () ∧
        Inline.Replaces caller callee f call site.pos b cont ρ := by
  obtain ⟨caller', call', id, callee, f, hi, hs, rfl⟩ := Module.inlineAt_eq_ok h
  obtain rfl : caller = caller' := Option.some.inj (hlive.symm.trans hi.caller_live)
  obtain rfl : call = call' := Except.ok.inj (hcall.symm.trans hi.call_at)
  obtain ⟨b, hb, hat, rfl, hheader, hp⟩ := Inline.splice_eq_ok hs hcall
  have hargs : ∀ d, call.dest = some d → .reg d ∉ call.args := fun d hd hmem =>
    hself d hd (List.mem_filterMap.2 ⟨.reg d, List.mem_append_right _ hmem, rfl⟩)
  have hcaller := Func.Checked.of_checkSSA hcheck
  have hcallee := Func.Checked.of_checkSSA hi.callee_ssa
  have hspliced : Inline.Spliced caller callee f call site.pos b := ⟨hb, hat, hp⟩
  exact ⟨id, callee, f, b, _, hi.resolves, hi.callee_live, rfl, Module.updated_setFunc hlive f,
    Func.checkSSA_eq_ok_iff.2 (hcaller.splice hcallee hi.defined hs hcall hargs),
    hspliced.replaces hheader hcaller hcallee hi.arity hargs⟩

namespace loopedCall

/-- The lesser of its parameter and ten. -/
def clamp : Func where
  name := "clamp"
  params := [⟨none, .int 32⟩]
  retTy := .int 32
  body := .ofList [
    (.entry, ⟨[.icmp 0 .ult (.arg 0) (.imm ⟨32, 10⟩)], .branch (.reg 0) 1 2⟩),
    (1, ⟨[], .ret (some (.arg 0))⟩),
    (2, ⟨[], .ret (some (.imm ⟨32, 10⟩))⟩)]

/-- The block of the call leads to itself, and its phi reads what is computed from the result. -/
def caller : Func where
  name := "caller"
  params := []
  retTy := .int 32
  body := .ofList [
    (.entry, ⟨[], .jump 1⟩),
    (1, ⟨[.phi ⟨0, .int 32, [(.entry, .imm ⟨32, 0⟩), (1, .reg 2)]⟩,
      .call ⟨some 1, .int 32, .direct ⟨2, 1⟩, [.reg 0], .c⟩,
      .arith .add 2 (.int 32) (.reg 1) (.imm ⟨32, 1⟩),
      .icmp 3 .ult (.reg 2) (.imm ⟨32, 8⟩)], .branch (.reg 3) 1 2⟩),
    (2, ⟨[], .ret (some (.reg 2))⟩)]

def call : Call := ⟨some 1, .int 32, .direct ⟨2, 1⟩, [.reg 0], .c⟩

def module : Module where
  funcs := .ofList [caller, clamp]

def site : CallSite := ⟨⟨1, 1⟩, ⟨1, 1⟩⟩

def inlined : Module := ((module.inlineAt site).toOption.map (·.2)).getD module

end loopedCall

open loopedCall in
theorem loopedCall_replaces : caller.checkSSA = .ok () ∧
    module.inlineAt site = .ok (3, inlined) ∧
    ∃ f b ρ, module.Updated site.caller f inlined ∧ f.checkSSA = .ok () ∧
      Inline.Replaces caller clamp f call site.pos b 3 ρ := by
  have hcheck : caller.checkSSA = .ok () := by decide +kernel
  have hlive : module.funcs.get? site.caller = some caller := rfl
  have hcall : caller.callAt site.pos = .ok call := rfl
  have hok : module.inlineAt site = .ok (3, inlined) := rfl
  obtain ⟨id, callee, f, b, ρ, hid, hcallee, -, hu, hf, hreplaces⟩ :=
    inlineAt_replaces hlive hcheck hcall (by decide) hok
  obtain rfl := Option.some.inj hid
  obtain rfl := Option.some.inj hcallee
  exact ⟨hcheck, hok, f, b, ρ, hu, hf, hreplaces⟩

end KernelIR
