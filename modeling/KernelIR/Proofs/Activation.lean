import KernelIR.Proofs.Execution
import Mathlib

/-!
# Steps of one activation

Code that neither calls nor returns runs in its activation.  The instructions of a block are run as
a list, wherever the block stands.
-/

namespace KernelIR

variable {M : Machine} {f : Func} {mem mem' : M.Memory} {lo : Reg}

def Operand.Below (lo : Reg) (op : Operand) : Prop := ∀ r, op = .reg r → r < lo

theorem Operand.Below.of_lt {lo r : Reg} (h : r < lo) : (Operand.reg r).Below lo := by
  intro r' hr
  rw [← Operand.reg.inj hr]
  exact h

theorem Operand.Below.mono {lo hi : Reg} {op : Operand} (h : op.Below lo) (hle : lo ≤ hi) :
    op.Below hi :=
  fun r hr => Nat.lt_of_lt_of_le (h r hr) hle

theorem Instr.act_of_op? {i : Instr} {op : Op} (h : i.op? = some op) (eval : Operand → M.Value)
    (mem : M.Memory) :
    i.act eval mem =
      (M.compute op (i.operands.map eval) mem).map fun r => .set r.1 r.2 := by
  cases i with
  | call c => cases h
  | phi p => cases h
  | _ =>
      cases h
      rfl

namespace Frame

/-- The next position, with `v` as the result of the instruction that was left. -/
def advance (F : Frame M) (dest : Option Reg) (v : M.Value) : Frame M :=
  { F with
    regs := match dest with
      | some r => Function.update F.regs r v
      | none => F.regs
    pos := ⟨F.pos.label, F.pos.index + 1⟩ }

theorem finish_eq {F : Frame M} {i : Instr} (h : f.instr? F.pos = some i) (v : M.Value) :
    F.finish f v = F.advance i.dest? v := by
  cases hdest : i.dest? <;> simp [finish, advance, h, hdest]

@[simp] theorem eval_advance_self (F : Frame M) (r : Reg) (v : M.Value) :
    (F.advance (some r) v).eval (.reg r) = v := by
  simp [eval, Machine.eval, advance]

theorem eval_advance_of_ne (F : Frame M) {r : Reg} (v : M.Value) {op : Operand} (h : op ≠ .reg r) :
    (F.advance (some r) v).eval op = F.eval op := by
  cases op with
  | reg r' =>
      have hne : r' ≠ r := fun heq => h (congrArg Operand.reg heq)
      exact Function.update_of_ne hne v F.regs
  | _ => rfl

/-- `G` belongs to the activation of `F`, and the registers below `lo` are the same. -/
structure Keeps (lo : Reg) (F G : Frame M) : Prop where
  func : G.func = F.func
  args : G.args = F.args
  regs : ∀ r < lo, G.regs r = F.regs r

namespace Keeps

variable {F G H : Frame M}

theorem refl (lo : Reg) (F : Frame M) : F.Keeps lo F := ⟨rfl, rfl, fun _ _ => rfl⟩

theorem trans (h : F.Keeps lo G) (h' : G.Keeps lo H) : F.Keeps lo H :=
  ⟨h'.func.trans h.func, h'.args.trans h.args, fun r hr => (h'.regs r hr).trans (h.regs r hr)⟩

theorem mono {hi : Reg} (h : F.Keeps hi G) (hle : lo ≤ hi) : F.Keeps lo G :=
  ⟨h.func, h.args, fun r hr => h.regs r (Nat.lt_of_lt_of_le hr hle)⟩

theorem advance {r : Reg} (hr : lo ≤ r) (h : F.Keeps lo G) (v : M.Value) :
    F.Keeps lo (G.advance (some r) v) := by
  refine ⟨h.func, h.args, fun r' hr' => ?_⟩
  have hne : r' ≠ r := Nat.ne_of_lt (Nat.lt_of_lt_of_le hr' hr)
  exact (Function.update_of_ne hne v G.regs).trans (h.regs r' hr')

theorem advance_none (h : F.Keeps lo G) (v : M.Value) : F.Keeps lo (G.advance none v) :=
  ⟨h.func, h.args, h.regs⟩

theorem eval (h : F.Keeps lo G) {op : Operand} (hop : op.Below lo) : G.eval op = F.eval op := by
  cases op with
  | reg r => exact h.regs r (hop r rfl)
  | arg index =>
      simp only [Frame.eval, Machine.eval]
      rw [h.args]
  | _ => rfl

end Keeps

theorem enter_of_no_phi (F : Frame M) {l : Label} {b : Block} (hb : f.body.find? l = some b)
    (h : leadingPhis b.instrs = []) : F.enter f l = some { F with pos := ⟨l, 0⟩ } := by
  rw [F.enter_eq hb, h]
  rfl

theorem enter_of_phi (F : Frame M) {l : Label} {b : Block} {p : Phi} {is : List Instr}
    (hb : f.body.find? l = some b) (hp : b.instrs = .phi p :: is) (his : leadingPhis is = []) :
    F.enter f l = some ({ F with pos := ⟨l, 0⟩ }.advance (some p.dest)
      (F.eval ((p.incoming.lookup F.pos.label).getD .undefined))) := by
  rw [F.enter_eq hb, hp, leadingPhis, his]
  refine congrArg some ?_
  simp only [advance, choose, List.map_cons, List.map_nil, List.length_cons, List.length_nil]
  refine congrArg (fun regs => ({ F with regs := regs, pos := ⟨l, 0 + 1⟩ } : Frame M)) ?_
  funext r
  by_cases hr : r = p.dest
  · simp [hr]
  · have hne : (r == p.dest) = false := by simpa using hr
    simp [List.lookup_cons, hne, Function.update_of_ne hr]

end Frame

/-- The instructions change the activation and the memory as stated. -/
inductive Computes : List Instr → Frame M × M.Memory → Frame M × M.Memory → Prop
  | nil {s : Frame M × M.Memory} : Computes [] s s
  | cons {i : Instr} {is : List Instr} {op : Op} {F : Frame M} {mem mem₁ : M.Memory} {v : M.Value}
      {t : Frame M × M.Memory} (hop : i.op? = some op)
      (hv : M.compute op (i.operands.map F.eval) mem = some (v, mem₁))
      (h : Computes is (F.advance i.dest? v, mem₁) t) : Computes (i :: is) (F, mem) t

theorem Computes.append {is js : List Instr} {s t u : Frame M × M.Memory} (h : Computes is s t)
    (h' : Computes js t u) : Computes (is ++ js) s u := by
  induction h with
  | nil => exact h'
  | cons hop hv _ ih => exact .cons hop hv (ih h')

namespace Func

/-- A step of an activation of `f` that neither calls nor returns. -/
inductive Continues (f : Func) : Frame M × M.Memory → Frame M × M.Memory → Prop
  | set {F : Frame M} {mem mem' : M.Memory} {v : M.Value} (h : F.act f mem = some (.set v mem')) :
      Continues f (F, mem) (F.finish f v, mem')
  | goto {F G : Frame M} {mem : M.Memory} {l : Label} (h : F.act f mem = some (.goto l))
      (hG : F.enter f l = some G) : Continues f (F, mem) (G, mem)

theorem Continues.next {s t : Frame M × M.Memory} (h : f.Continues s t) {m : Module}
    (hf : m.funcs.get? s.1.func = some f) (silent : CallSite → Bool) (outer : List (Frame M))
    (trace : List (Event M)) :
    m.next silent (.running s.1 outer s.2 trace) = some (.running t.1 outer t.2 trace) ∧
      t.1.func = s.1.func := by
  cases h with
  | set h =>
      refine ⟨?_, rfl⟩
      simp [Module.next, Module.resume, hf, h]
  | goto h hG =>
      refine ⟨by simp [Module.next, hf, h, hG], ?_⟩
      obtain ⟨b, -, rfl⟩ := Option.map_eq_some_iff.1 hG
      rfl

/-- A run of an activation is a run of its module. -/
theorem Continues.reflTransGen_next {s t : Frame M × M.Memory}
    (h : Relation.ReflTransGen f.Continues s t) {m : Module}
    (hf : m.funcs.get? s.1.func = some f) (silent : CallSite → Bool) (outer : List (Frame M))
    (trace : List (Event M)) :
    Relation.ReflTransGen (fun a b => m.next silent a = some b) (.running s.1 outer s.2 trace)
      (.running t.1 outer t.2 trace) ∧ t.1.func = s.1.func := by
  induction h with
  | refl => exact ⟨.refl, rfl⟩
  | tail _ hstep ih =>
      obtain ⟨hrun, hfunc⟩ := ih
      obtain ⟨hnext, hfunc'⟩ := hstep.next (m := m) (hfunc ▸ hf) silent outer trace
      exact ⟨hrun.tail hnext, hfunc'.trans hfunc⟩

/-- From `s` the activation gets to `t`, where it takes an edge to `l`. -/
structure Leaves (f : Func) (lo : Reg) (s t : Frame M × M.Memory) (l : Label) : Prop where
  run : Relation.ReflTransGen f.Continues s t
  act : t.1.act f t.2 = some (.goto l)
  keeps : s.1.Keeps lo t.1

namespace Leaves

variable {s t u : Frame M × M.Memory} {G : Frame M} {l l' : Label}

theorem trans (h : f.Leaves lo s t l) (h' : f.Leaves lo t u l') : f.Leaves lo s u l' where
  run := h.run.trans h'.run
  act := h'.act
  keeps := h.keeps.trans h'.keeps

theorem enter (hact : s.1.act f s.2 = some (.goto l)) (hG : s.1.enter f l = some G)
    (hkeeps : s.1.Keeps lo G) (h : f.Leaves lo (G, s.2) t l') : f.Leaves lo s t l' where
  run := .head (.goto hact hG) h.run
  act := h.act
  keeps := hkeeps.trans h.keeps

end Leaves

end Func

/-- The rest of a block is run up to its terminator. -/
theorem Computes.run {is : List Instr} {s t : Frame M × M.Memory} (h : Computes is s t) {b : Block}
    (hb : f.body.find? s.1.pos.label = some b) (his : b.instrs.drop s.1.pos.index = is) :
    Relation.ReflTransGen f.Continues s t ∧ t.1.pos.label = s.1.pos.label ∧
      t.1.act f t.2 = b.terminator.act t.1.eval := by
  induction h with
  | @nil s =>
      refine ⟨.refl, rfl, ?_⟩
      have hend : b.instrs[s.1.pos.index]? = none :=
        List.getElem?_eq_none (List.drop_eq_nil_iff.1 his)
      simp [Frame.act, hb, hend]
  | @cons i is op F mem mem₁ v t hop hv _ ih =>
      have hi : b.instrs[F.pos.index]? = some i := by
        have hhead := congrArg (·[0]?) his
        simpa using hhead
      have hrest : b.instrs.drop (F.pos.index + 1) = is := by
        rw [← List.tail_drop, his, List.tail_cons]
      have hinstr : f.instr? F.pos = some i := by
        rw [Func.instr?, hb]
        exact hi
      have hact : F.act f mem = some (.set v mem₁) := by
        simp [Frame.act, hb, hi, Instr.act_of_op? hop, hv]
      obtain ⟨hrun, hlabel, hend⟩ := ih hb hrest
      refine ⟨.head ?_ hrun, hlabel, hend⟩
      rw [← Frame.finish_eq hinstr]
      exact .set hact

end KernelIR
