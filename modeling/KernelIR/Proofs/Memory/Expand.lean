import KernelIR.Proofs.Dominance
import KernelIR.Proofs.Memory.Loop
import Mathlib

/-!
# Memory calls as loops

The function in which a loop stands in the place of a call, and what a run of it does from the end
of the header to the exit.
-/

namespace KernelIR

namespace Func

theorem mem_dests_iff {f : Func} {r : Reg} :
    r ∈ f.dests ↔ ∃ e ∈ f.body.entries, r ∈ e.2.dests := by
  simp only [dests, OrderedMap.values, List.mem_flatMap, List.mem_map]
  constructor
  · rintro ⟨b, ⟨e, he, rfl⟩, hr⟩
    exact ⟨e, he, hr⟩
  · rintro ⟨e, he, hr⟩
    exact ⟨e.2, ⟨e, he, rfl⟩, hr⟩

theorem Checked.mem_dests_of_mem_reads {f : Func} (h : f.Checked) {r : Reg} (hr : r ∈ f.reads) :
    r ∈ f.dests := by
  simp only [Func.reads, Block.reads, OrderedMap.values, List.mem_flatMap, List.mem_map,
    List.mem_filterMap] at hr
  obtain ⟨b, ⟨e, he, rfl⟩, op, hop, hreg⟩ := hr
  obtain rfl := Operand.reg?_eq_some_iff.1 hreg
  have hfault := h.reads e.1 e.2 (find?_of_mem_entries he) _ hop
  simp only [operandFault?] at hfault
  split_ifs at hfault with hmem
  exact hmem

/-- Nothing else defines a register that was there when an instruction without a result goes. -/
theorem Checked.nextReg_le {f opened : Func} (h : f.Checked) {pos : Position} {b : Block}
    {i : Instr} (hb : f.body.find? pos.label = some b) (hi : b.instrs[pos.index]? = some i)
    (hdest : i.dest? = none) (hp : opened.body.entries.Perm (openedBlocks f pos b)) :
    f.nextReg ≤ opened.nextReg := by
  have hdests : ∀ r ∈ f.dests, r ∈ opened.dests := by
    intro r hr
    obtain ⟨⟨l, b'⟩, he, hr⟩ := mem_dests_iff.1 hr
    suffices hin : ∃ e ∈ (pos.label, (⟨b.instrs.take pos.index, .jump f.nextLabel⟩ : Block)) ::
        (f.nextLabel, ⟨b.instrs.drop (pos.index + 1), b.terminator⟩) ::
          (f.body.erase pos.label).entries, r ∈ e.2.dests by
      obtain ⟨e, he, hr⟩ := hin
      refine mem_dests_iff.2 ⟨_, hp.mem_iff.2 (List.mem_map_of_mem he), ?_⟩
      rw [dests_followTail]
      exact hr
    by_cases hl : l = pos.label
    · subst hl
      obtain rfl : b = b' := Option.some.inj (hb.symm.trans (find?_of_mem_entries he))
      obtain ⟨hlt, hi⟩ := List.getElem?_eq_some_iff.1 hi
      have hsplit : b.dests = (b.instrs.take pos.index).filterMap Instr.dest? ++
          (b.instrs.drop (pos.index + 1)).filterMap Instr.dest? := by
        conv_lhs => rw [Block.dests, ← List.take_append_drop pos.index b.instrs]
        rw [List.drop_eq_getElem_cons hlt, hi, List.filterMap_append,
          List.filterMap_cons_none hdest]
      simp only [hsplit, List.mem_append] at hr
      rcases hr with hr | hr
      · exact ⟨_, List.mem_cons_self, hr⟩
      · exact ⟨_, List.mem_cons_of_mem _ List.mem_cons_self, hr⟩
    · refine ⟨_, List.mem_cons_of_mem _ (List.mem_cons_of_mem _ ?_), hr⟩
      rw [OrderedMap.entries_erase_eq_filter]
      exact List.mem_filter.2 ⟨he, decide_eq_true hl⟩
  refine foldl_max_le (Nat.zero_le _) ?_
  intro r hr
  rcases List.mem_append.1 hr with hr | hr
  · exact lt_nextReg_of_mem_dests (hdests r hr)
  · exact lt_nextReg_of_mem_dests (hdests r (h.mem_dests_of_mem_reads hr))

/-- The tail of the split block is no target of its own terminator. -/
theorem find?_opened_tail {f opened : Func} (h : f.Checked) {pos : Position} {b : Block}
    (hb : f.body.find? pos.label = some b)
    (hp : opened.body.entries.Perm (openedBlocks f pos b)) :
    opened.body.find? f.nextLabel = some ⟨b.instrs.drop (pos.index + 1), b.terminator⟩ := by
  have htail := find?_of_mem_entries (hp.mem_iff.2 (List.mem_cons_of_mem _ List.mem_cons_self))
  rw [if_neg (h.nextLabel_not_mem_targets hb)] at htail
  exact htail

theorem exists_find?_opened_head {f opened : Func} {pos : Position} {b : Block} {i : Instr}
    (hi : b.instrs[pos.index]? = some i) (hp : opened.body.entries.Perm (openedBlocks f pos b)) :
    ∃ head, opened.body.find? pos.label = some head ∧ pos.index = head.instrs.length := by
  refine ⟨_, find?_of_mem_entries (hp.mem_iff.2 List.mem_cons_self), ?_⟩
  have hlt := (List.getElem?_eq_some_iff.1 hi).1
  have hlength : (b.instrs.take pos.index).length = pos.index := by
    rw [List.length_take]
    exact Nat.min_eq_left (Nat.le_of_lt hlt)
  split
  · rw [Block.mapPhiLabels, List.length_map, hlength]
  · exact hlength.symm

end Func

namespace MemCall

/-- `f` with the test for an empty range at the end of a block. -/
def guarded (c : MemCall) (f : Func) (header first exit : Label) : Func :=
  { f with body := f.body.modify header (c.guardHeader f.nextReg first exit) }

theorem le_of_mem_blocks {c : MemCall} {base : Reg} {header first exit : Label}
    {e : Label × Block} (h : e ∈ c.blocks base header first exit) : first ≤ e.1 := by
  rw [blocks] at h
  cases hkind : c.kind <;> simp only [hkind, List.mem_cons, List.not_mem_nil, or_false] at h
  · rw [h]
  · rcases h with rfl | rfl | rfl
    · exact Nat.le_refl _
    · exact Nat.le_add_right _ _
    · exact Nat.le_add_right _ _
  · rw [h]

theorem nodup_blocks (c : MemCall) (base : Reg) (header first exit : Label) :
    ((c.blocks base header first exit).map (·.1)).Nodup := by
  rw [blocks]
  cases c.kind <;> simp

/-- Blocks under fresh labels leave what is under the others. -/
theorem find?_insertBlocks {f : Func} {c : MemCall} {base : Reg} {header first exit : Label}
    (hfresh : ∀ l, first ≤ l → f.body.find? l = none) :
    (∀ e ∈ c.blocks base header first exit,
        (f.insertBlocks (c.blocks base header first exit)).body.find? e.1 = some e.2) ∧
      ∀ l b, f.body.find? l = some b →
        (f.insertBlocks (c.blocks base header first exit)).body.find? l = some b := by
  have hperm := Func.entries_insertBlocks (c.nodup_blocks base header first exit)
    fun e he => hfresh e.1 (le_of_mem_blocks he)
  constructor
  · intro e he
    exact Func.find?_of_mem_entries (hperm.mem_iff.2 (List.mem_append_left _ he))
  · intro l b hb
    have hmem := List.mem_append_right (c.blocks base header first exit)
      (OrderedMap.mem_entries_iff.2 hb)
    exact Func.find?_of_mem_entries (hperm.mem_iff.2 hmem)

theorem expand_eq_ok {c : MemCall} {f f' : Func} {pos : Position} {b : Block}
    (hb : f.body.find? pos.label = some b) (h : c.expand f pos = .ok f') :
    ∃ opened : Func, opened.body.entries.Perm (f.openedBlocks pos b) ∧
      opened = { f with body := opened.body } ∧
      f' = (c.guarded opened pos.label (f.nextLabel + 1) f.nextLabel).insertBlocks
        (c.blocks (opened.nextReg + 1) pos.label (f.nextLabel + 1) f.nextLabel) := by
  rw [expand] at h
  cases hs : f.splitBlock pos.label (pos.index + 1) with
  | error e => simp [hs] at h
  | ok r =>
      obtain ⟨exit, split⟩ := r
      cases hr : split.removeInstr pos with
      | error e => simp [hs, hr] at h
      | ok r =>
          obtain ⟨i, opened⟩ := r
          obtain ⟨hp, rfl, hopened⟩ := Func.entries_opened hs hr hb
          have hlabel : opened.nextLabel = f.nextLabel + 1 := Func.nextLabel_opened hp hb
          simp only [hs, hr, hlabel, Except.ok.injEq] at h
          exact ⟨opened, hp, hopened, h.symm⟩

/-- `f'` is `f` with the loop in the place of the call at `pos`, with registers from `base` on. -/
structure Expanded (c : MemCall) (f f' : Func) (pos : Position) (base : Reg) (b head : Block) :
    Prop where
  block : f.body.find? pos.label = some b
  nextReg_le : f.nextReg ≤ base
  head_length : pos.index = head.instrs.length
  find?_header :
    f'.body.find? pos.label = some (c.guardHeader base (f.nextLabel + 1) f.nextLabel head)
  find?_exit :
    f'.body.find? f.nextLabel = some ⟨b.instrs.drop (pos.index + 1), b.terminator⟩
  find?_blocks : ∀ e ∈ c.blocks (base + 1) pos.label (f.nextLabel + 1) f.nextLabel,
    f'.body.find? e.1 = some e.2

theorem exists_expanded {c : MemCall} {f f' : Func} {pos : Position} {call : Call}
    (hchecked : f.Checked) (hcall : f.callAt pos = .ok call) (hdest : call.dest = none)
    (h : c.expand f pos = .ok f') : ∃ base b head, c.Expanded f f' pos base b head := by
  obtain ⟨b, hb, hi⟩ := Func.callAt_eq_ok_iff.1 hcall
  obtain ⟨opened, hp, -, rfl⟩ := expand_eq_ok hb h
  have hlt : pos.label < f.nextLabel :=
    Func.lt_nextLabel (OrderedMap.mem_keys_iff.2 (by rw [hb]; rfl))
  have hmodified : ∀ l, l ≠ pos.label →
      (c.guarded opened pos.label (f.nextLabel + 1) f.nextLabel).body.find? l =
        opened.body.find? l :=
    fun l hl => OrderedMap.find?_modify_of_ne _ hl _
  have hfresh : ∀ l, f.nextLabel + 1 ≤ l →
      (c.guarded opened pos.label (f.nextLabel + 1) f.nextLabel).body.find? l = none := by
    intro l hl
    rw [hmodified l (Nat.ne_of_gt (Nat.lt_of_lt_of_le (Nat.lt_succ_of_lt hlt) hl))]
    refine Func.find?_of_nextLabel_le ?_
    rw [Func.nextLabel_opened hp hb]
    exact hl
  obtain ⟨hblocks, hold⟩ := find?_insertBlocks (c := c) hfresh
  obtain ⟨head, hhead, hlength⟩ := Func.exists_find?_opened_head hi hp
  have htail := Func.find?_opened_tail hchecked hb hp
  refine ⟨_, b, head, hb, hchecked.nextReg_le hb hi hdest hp, hlength, hold _ _ ?_, hold _ _ ?_,
    hblocks⟩
  · exact (OrderedMap.find?_modify_self _ _ _).trans (congrArg _ hhead)
  · exact (hmodified _ (Nat.ne_of_gt hlt)).trans htail

end MemCall

variable {address : GlobalId → Nat} {external : Word → List Word → Bytes → Option (Word × Bytes)}

theorem Func.Checked.below_of_mem_args {f : Func} (h : f.Checked) {pos : Position} {call : Call}
    (hcall : f.callAt pos = .ok call) {op : Operand} (hop : op ∈ call.args) :
    op.Below f.nextReg := by
  intro r hr
  obtain ⟨b, hb, hi⟩ := Func.callAt_eq_ok_iff.1 hcall
  refine h.lt_nextReg hb (List.mem_append_left _ (List.mem_flatMap.2
    ⟨_, List.mem_of_getElem? hi, ?_⟩))
  rw [← hr]
  exact List.mem_append_right _ hop

theorem Module.expandMemCall_eq_ok {m m' : Module} {site : CallSite} {kind : MemIntrinsic}
    {f : Func} {call : Call} {c : MemCall} (hf : m.funcs.get? site.caller = some f)
    (hcall : f.callAt site.pos = .ok call) (hc : m.memCall? f kind call = some c)
    (h : m.expandMemCall site kind = .ok m') :
    ∃ f', c.expand f site.pos = .ok f' ∧ m'.funcs.get? site.caller = some f' := by
  rw [expandMemCall] at h
  simp only [hf, hcall, hc] at h
  cases he : c.expand f site.pos with
  | error e => simp [he] at h
  | ok f' =>
      simp only [he, Except.ok.injEq] at h
      refine ⟨f', rfl, ?_⟩
      rw [← h, setFunc, Arena.set, Arena.get?_modify_self, hf]
      rfl

/-- From the end of the header a run gets to the exit, with the range written and all registers as
they were.  `E` is the activation on the edge to the exit, where the phis of the exit are yet to be
chosen. -/
theorem expandMemCall_writes {m m' : Module} {site : CallSite} {kind : MemIntrinsic} {f : Func}
    {call : Call} {dst source len : Operand} {rest : List Operand} {w d n : Nat}
    (hf : m.funcs.get? site.caller = some f) (hcheck : f.checkSSA = .ok ())
    (hcall : f.callAt site.pos = .ok call) (hdest : call.dest = none)
    (hargs : call.args = dst :: source :: len :: rest)
    (hty : m.valueTy? f len = some (.int w)) (hw : 1 ≤ w ∧ w ≤ 64)
    (h : m.expandMemCall site kind = .ok m') (F : Frame (byteMachine address external))
    (hfunc : F.func = site.caller) (hpos : F.pos = site.pos) (hdst : F.eval dst = .bits 64 d)
    (hlen : F.eval len = .bits w n) (hn : n < 2 ^ w) (hrange : d + n ≤ 2 ^ 64)
    (hsource : kind.Allows d n (F.eval source)) (silent : CallSite → Bool)
    (outer : List (Frame (byteMachine address external))) (mem : Bytes)
    (trace : List (Event (byteMachine address external))) :
    ∃ f' b E G, m'.funcs.get? site.caller = some f' ∧ f.body.find? site.pos.label = some b ∧
      f'.body.find? f.nextLabel = some ⟨b.instrs.drop (site.pos.index + 1), b.terminator⟩ ∧
      Relation.ReflTransGen (fun s t => m'.next silent s = some t) (.running F outer mem trace)
        (.running G outer (mem.write d 0 n (kind.byteAt (F.eval source) mem)) trace) ∧
      E.enter f' f.nextLabel = some G ∧ F.Keeps f.nextReg E := by
  have hchecked := Func.Checked.of_checkSSA hcheck
  have hc : ∃ c, m.memCall? f kind call = some c ∧ c.kind = kind ∧ c.dst = dst ∧
      c.source = source ∧ c.len = len ∧ c.lenTy = .int w := by
    rw [Module.memCall?, hargs]
    exact ⟨_, rfl, rfl, rfl, rfl, rfl, congrArg (Option.getD · Ty.i64) hty⟩
  obtain ⟨c, hc, rfl, rfl, rfl, rfl, hlenTy⟩ := hc
  obtain ⟨f', hexpand, hf'⟩ := Module.expandMemCall_eq_ok hf hcall hc h
  obtain ⟨base, b, head, hx⟩ := MemCall.exists_expanded hchecked hcall hdest hexpand
  have hloaded : c.Loaded f.nextReg F w d n (F.eval c.source) := by
    refine ⟨fun op hop => hchecked.below_of_mem_args hcall ?_, hlenTy, hw, hdst, rfl, hlen, hn,
      hrange, hsource⟩
    rw [hargs]
    exact List.mem_append_left rest hop
  have hlt : F.pos.label < f.nextLabel + 1 := by
    rw [hpos]
    exact Nat.lt_succ_of_lt (Func.lt_nextLabel (OrderedMap.mem_keys_iff.2 (by rw [hx.block]; rfl)))
  obtain ⟨E, hE⟩ : ∃ E, f'.Leaves f.nextReg (F, mem)
      (E, mem.write d 0 n (c.kind.byteAt (F.eval c.source) mem)) f.nextLabel :=
    MemCall.exists_leaves_guarded hloaded hx.nextReg_le (by rw [hpos]; exact hx.head_length)
      (by rw [hpos]; exact hx.find?_header) (by rw [hpos]; exact hx.find?_blocks) hlt mem
  have hG := E.enter_eq hx.find?_exit
  obtain ⟨hrun, -⟩ := Func.Continues.reflTransGen_next (hE.run.tail (.goto hE.act hG))
    (m := m') (hfunc ▸ hf') silent outer trace
  exact ⟨f', b, E, _, hf', hx.block, hx.find?_exit, hrun, hG, hE.keeps⟩

namespace movedBytes

/-- Hands its parameters on to the intrinsic. -/
def caller : Func where
  name := "caller"
  params := [⟨none, .privatePtr⟩, ⟨none, .privatePtr⟩, ⟨none, .i64⟩]
  retTy := .void
  body := .ofList [(.entry,
    ⟨[.call ⟨none, .void, .direct ⟨2, 1⟩, [.arg 0, .arg 1, .arg 2, .imm ⟨1, 0⟩], .c⟩],
      .ret none⟩)]

def memmove : Func where
  name := "llvm.memmove.p0.p0.i64"
  params := [⟨none, .privatePtr⟩, ⟨none, .privatePtr⟩, ⟨none, .i64⟩, ⟨none, .i1⟩]
  retTy := .void

def module : Module where
  funcs := .ofList [caller, memmove]

def site : CallSite := ⟨⟨1, 1⟩, ⟨.entry, 0⟩⟩

def moved : Module := (module.expandMemCall site .move).toOption.getD module

def machine : Machine := byteMachine (fun _ => 0) fun _ _ _ => none

/-- Moves two bytes up by one place, so that the ranges overlap. -/
def start : Frame machine := .start ⟨1, 1⟩ [.bits 64 4, .bits 64 3, .bits 64 2]

def mem : Bytes := UInt8.ofNat

end movedBytes

open movedBytes in
theorem movedBytes_writes : module.expandMemCall site .move = .ok moved ∧
    ∃ G : Frame machine, Relation.ReflTransGen
      (fun s t => moved.next (fun _ => false) s = some t) (.running start [] mem [])
      (.running G [] (mem.write 4 0 2 fun i => mem (3 + i)) []) := by
  have hok : module.expandMemCall site .move = .ok moved := rfl
  obtain ⟨f', b, E, G, -, -, -, hrun, -, -⟩ := expandMemCall_writes (f := caller) (w := 64) (d := 4)
    (n := 2) rfl (by decide +kernel) rfl rfl rfl rfl (by decide) hok start rfl rfl rfl rfl
    (by decide) (by decide) (.move (s := 3) (by decide)) (fun _ => false) [] mem []
  exact ⟨hok, G, hrun⟩

end KernelIR
