import KernelIR.Proofs.Inline.Blocks
import KernelIR.Proofs.Renaming
import Mathlib

/-!
# The caller outside of the copy

The activations of the caller before and after inlining, at corresponding points.  The result of
the call is read as the value that takes its place; this value stays the same until the call is
reached again, since by then its operand is not defined anew.
-/

namespace KernelIR

variable {M : Machine}

namespace Inline

variable {caller callee f : Func} {call : Call} {pos : Position} {b : Block}

/-- The point of the spliced body that stands for `p`, which is not the call. -/
def place (caller callee : Func) (call : Call) (pos p : Position) : Position :=
  if p.label = pos.label ∧ pos.index < p.index then
    ⟨caller.nextLabel, (resultPhis call (copy caller call callee).returns).length +
      (p.index - (pos.index + 1))⟩
  else p

theorem place_of_le {p : Position} (h : p.label = pos.label → p.index ≤ pos.index) :
    place caller callee call pos p = p :=
  if_neg fun hp => Nat.not_lt.2 (h hp.1) hp.2

theorem place_of_lt {p : Position} (hl : p.label = pos.label) (h : pos.index < p.index) :
    place caller callee call pos p = ⟨caller.nextLabel,
      (resultPhis call (copy caller call callee).returns).length + (p.index - (pos.index + 1))⟩ :=
  if_pos ⟨hl, h⟩

theorem place_next {p : Position} (hne : p ≠ pos) :
    place caller callee call pos ⟨p.label, p.index + 1⟩ =
      ⟨(place caller callee call pos p).label, (place caller callee call pos p).index + 1⟩ := by
  by_cases hl : p.label = pos.label
  · have hi : p.index ≠ pos.index := fun hi => hne (by cases p; cases pos; simp_all)
    by_cases hlt : pos.index < p.index
    · rw [place_of_lt hl hlt, place_of_lt (p := ⟨p.label, p.index + 1⟩) hl (by simp; omega)]
      simp only [Position.mk.injEq, true_and]
      omega
    · rw [place_of_le fun _ => Nat.le_of_not_lt hlt, place_of_le fun _ => by simp; omega]
  · rw [place_of_le (p := p) fun h => absurd h hl,
      place_of_le (p := ⟨p.label, p.index + 1⟩) fun h => absurd h hl]

namespace Inlined

/-- The code at corresponding points. -/
theorem find?_place (h : Inlined caller callee f call pos b) {p : Position} {b₀ : Block}
    (hb₀ : caller.body.find? p.label = some b₀) (hne : p ≠ pos) :
    ∃ b', f.body.find? (place caller callee call pos p).label = some b' ∧
      b'.instrs[(place caller callee call pos p).index]? = b₀.instrs[p.index]?.map
        (callerInstr caller callee call pos b (place caller callee call pos p).label) ∧
      (b₀.instrs[p.index]? = none →
        b'.terminator = b₀.terminator.mapOperands (subst caller callee call)) := by
  by_cases hl : p.label = pos.label
  · have hb : b₀ = b := Option.some.inj (hb₀.symm.trans (hl ▸ h.block))
    have hi : p.index ≠ pos.index := fun hi => hne (by cases p; cases pos; simp_all)
    subst hb
    by_cases hlt : pos.index < p.index
    · rw [place_of_lt hl hlt]
      refine ⟨_, h.find?_tail, ?_, fun _ => rfl⟩
      have hsub : pos.index + 1 + (p.index - (pos.index + 1)) = p.index := by omega
      rw [List.getElem?_append_right (by simp), List.length_map, Nat.add_sub_cancel_left,
        List.getElem?_map, List.getElem?_drop, hsub]
    · have hlt' : p.index < pos.index := by omega
      rw [place_of_le fun _ => Nat.le_of_not_lt hlt]
      refine ⟨_, by rw [hl]; exact h.find?_head, ?_, fun hnone => ?_⟩
      · rw [List.getElem?_map, List.getElem?_take_of_lt hlt', hl]
      · have hlen := (List.getElem?_eq_some_iff.1 h.call_at).1
        exact absurd (List.getElem?_eq_none_iff.1 hnone) (by omega)
  · rw [place_of_le fun h => absurd h hl]
    exact ⟨_, h.find?_other hl hb₀, List.getElem?_map .., fun _ => rfl⟩

theorem not_declaration (h : Inlined caller callee f call pos b) :
    caller.isDeclaration = false :=
  Func.isDeclaration_of_find? h.block

theorem not_phi (h : Inlined caller callee f call pos b) :
    (leadingPhis b.instrs).length ≤ pos.index := by
  by_contra hlt
  have hp := List.getElem?_eq_getElem (Nat.lt_of_not_le hlt)
  have hi := Func.getElem?_leadingPhis hp
  rw [h.call_at] at hi
  cases hi

/-- The result of the call is defined by no phi. -/
theorem dest_ne_of_mem_phis (h : Inlined caller callee f call pos b) {l : Label} {b₁ : Block}
    (hb₁ : caller.body.find? l = some b₁) {r : Reg}
    (hr : r ∈ (leadingPhis b₁.instrs).map Phi.dest) : call.dest ≠ some r := by
  intro hd
  obtain ⟨n, p, -, hp, rfl⟩ := Func.exists_instr?_of_mem_dests hb₁ hr
  have hsite := h.caller_checked.def_unique hp rfl h.instr?_pos hd
  rw [hsite, h.instr?_pos] at hp
  cases hp

/-- A definition of what is read in place of the result comes before the call. -/
theorem avoids_dest (h : Inlined caller callee f call pos b) {d a : Nat} (hd : call.dest = some d)
    (ha : .reg a ∈ call.args) {p : Position} {i : Instr} (hp : caller.Reaches p)
    (hdef : caller.instr? p = some i) (hia : i.dest? = some a) : caller.Avoids d p := by
  have hread : ¬caller.Avoids a pos :=
    h.caller_strict.reads pos (.call call) h.instr?_pos (fun _ h => by cases h) a
      (List.mem_filterMap.2 ⟨.reg a, List.mem_append_right _ ha, rfl⟩)
  exact h.caller_checked.avoids_of_def h.instr?_pos hd hread hdef hia hp

theorem leadingPhis_callerInstr (l : Label) (is : List Instr) :
    leadingPhis (is.map (callerInstr caller callee call pos b l)) =
      (leadingPhis is).map (Phi.rename id (follow caller pos b l) (subst caller callee call)) := by
  refine leadingPhis_map ?_ ?_ is
  · intro p
    simp [callerInstr, Instr.mapPhiLabels, Instr.mapOperands, Phi.rename]
  · intro i hi p
    cases i with
    | phi q => exact absurd rfl (hi q)
    | _ =>
        intro h
        cases h

/-- The phis of a block of the caller are found under the same label. -/
theorem find?_entered (h : Inlined caller callee f call pos b) {l : Label} {b₀ : Block}
    (hb₀ : caller.body.find? l = some b₀) :
    ∃ b', f.body.find? l = some b' ∧ leadingPhis b'.instrs = (leadingPhis b₀.instrs).map
      (Phi.rename id (follow caller pos b l) (subst caller callee call)) := by
  by_cases hl : l = pos.label
  · obtain rfl : b₀ = b := Option.some.inj (hb₀.symm.trans (hl ▸ h.block))
    refine ⟨_, by rw [hl]; exact h.find?_head, ?_⟩
    rw [leadingPhis_callerInstr, leadingPhis_take h.not_phi, hl]
  · exact ⟨_, h.find?_other hl hb₀, leadingPhis_callerInstr l _⟩

/-- An edge of the caller is found under the name that the phis of its target know it by. -/
theorem follow_eq_iff (h : Inlined caller callee f call pos b) {k l : Label} {b₀ : Block}
    (hb₀ : caller.body.find? k = some b₀) (hl : l ∈ b₀.terminator.targets) {e : Label}
    (he : caller.body.contains e = true) {n : Nat} (hn : b₀.instrs.length ≤ n) :
    follow caller pos b l e = (place caller callee call pos ⟨k, n⟩).label ↔ e = k := by
  obtain ⟨be, hbe⟩ := Option.isSome_iff_exists.1 he
  have hefresh := ne_nextLabel hbe
  have hkfresh := ne_nextLabel hb₀
  by_cases hk : k = pos.label
  · obtain rfl : b₀ = b := Option.some.inj (hb₀.symm.trans (hk ▸ h.block))
    have hlt := (List.getElem?_eq_some_iff.1 h.call_at).1
    rw [place_of_lt (p := ⟨k, n⟩) hk (Nat.lt_of_lt_of_le hlt hn), follow, if_pos hl, Func.relabel,
      hk]
    by_cases heq : e = pos.label
    · simp [heq]
    · simp [heq, hefresh]
  · rw [place_of_le (p := ⟨k, n⟩) fun hl' => absurd hl' hk, follow]
    split
    · rw [Func.relabel]
      by_cases heq : e = pos.label
      · simp only [heq, if_true]
        exact ⟨fun h' => absurd h'.symm hkfresh, fun h' => absurd h'.symm hk⟩
      · simp [heq]
    · rfl

end Inlined

/-- An activation of the caller before and after inlining, outside of the copy. -/
structure Outside (caller callee : Func) (call : Call) (site : CallSite) (F F' : Frame M) :
    Prop where
  func : F.func = site.caller
  func' : F'.func = site.caller
  args : F'.args = F.args
  pos : F'.pos = place caller callee call site.pos F.pos
  reached : caller.Reaches F.pos
  regs : ∀ r : Nat, r < caller.nextReg →
    F'.eval (subst caller callee call (.reg r)) = F.regs r ∨ caller.Avoids r F.pos

namespace Outside

variable {site : CallSite} {F F' : Frame M}

theorem start (id : FuncId) (args : List M.Value) (hid : id = site.caller) :
    Outside caller callee call site (Frame.start id args) (Frame.start id args) where
  func := hid
  func' := hid
  args := rfl
  pos := (place_of_le fun _ => Nat.zero_le _).symm
  reached := .entry
  regs _ _ := Or.inr .entry

/-- An operand that may be read has the value of what is read in its place. -/
theorem eval (h : Outside caller callee call site F F') {op : Operand}
    (hread : ∀ r : Nat, op = .reg r → r < caller.nextReg ∧ ¬caller.Avoids r F.pos) :
    F'.eval (subst caller callee call op) = F.eval op := by
  cases op with
  | reg r => exact (h.regs r (hread r rfl).1).resolve_right (hread r rfl).2
  | arg index =>
      rw [subst_of_ne fun _ _ => by simp]
      simp only [Frame.eval, Machine.eval, h.args]
  | _ =>
      rw [subst_of_ne fun _ _ => by simp]
      rfl

theorem block (h : Outside caller callee call site F F')
    (hi : Inlined caller callee f call site.pos b) :
    ∃ b₀, caller.body.find? F.pos.label = some b₀ ∧ F.pos.index ≤ b₀.instrs.length :=
  Func.Path.block h.reached hi.caller_checked hi.not_declaration

/-- Outside of the call, both do the same. -/
theorem act (h : Outside caller callee call site F F')
    (hi : Inlined caller callee f call site.pos b) (hne : F.pos ≠ site.pos) (mem : M.Memory) :
    F'.act f mem = F.act caller mem := by
  obtain ⟨b₀, hb₀, hle⟩ := h.block hi
  obtain ⟨b', hb', hinstr, hterm⟩ := hi.find?_place hb₀ hne
  simp only [Frame.act, h.pos, hb', hb₀, Option.bind_some, hinstr]
  have hlt : ∀ r : Nat, .reg r ∈ b₀.operands → r < caller.nextReg := fun r hr =>
    hi.caller_checked.lt_nextReg hb₀ hr
  cases hi₀ : b₀.instrs[F.pos.index]? with
  | none =>
      have hend : F.pos.index = b₀.instrs.length :=
        Nat.le_antisymm hle (List.getElem?_eq_none_iff.1 hi₀)
      rw [hterm hi₀]
      refine Terminator.act_mapOperands fun op hop => h.eval fun r hr => ⟨?_, ?_⟩
      · exact hlt r (hr ▸ List.mem_append_right _ hop)
      · have hpos : F.pos = ⟨F.pos.label, b₀.instrs.length⟩ := by rw [← hend]
        rw [hpos]
        exact hi.caller_strict.end_reads _ b₀ hb₀ r
          (List.mem_filterMap.2 ⟨op, hop, Operand.reg?_eq_some_iff.2 hr⟩)
  | some i =>
      simp only [Option.map_some, callerInstr]
      by_cases hphi : ∃ p, i = .phi p
      · obtain ⟨p, rfl⟩ := hphi
        rfl
      · refine (Instr.act_mapOperands F.eval F'.eval (fun _ => rfl) (fun op hop => ?_) mem).trans
          (Instr.act_mapPhiLabels _ _ _ _)
        rw [Instr.operands_mapPhiLabels] at hop
        refine h.eval fun r hr => ⟨?_, ?_⟩
        · exact hlt r (hr ▸ List.mem_append_left _
            (List.mem_flatMap.2 ⟨i, List.mem_of_getElem? hi₀, hop⟩))
        · exact hi.caller_strict.reads F.pos i (Func.instr?_eq_some_iff.2 ⟨b₀, hb₀, hi₀⟩)
            (fun p hp => hphi ⟨p, hp⟩) r
            (List.mem_filterMap.2 ⟨op, hop, Operand.reg?_eq_some_iff.2 hr⟩)

/-- Both write the same values to the same registers, which the call does not define. -/
theorem write (h : Outside caller callee call site F F') {q q' : Position} {W : Reg → Prop}
    {regs regs' : Reg → M.Value} (hq : caller.Reaches q)
    (hq' : q' = place caller callee call site.pos q)
    (hkeep : ∀ r, ¬W r → regs r = F.regs r ∧ regs' r = F'.regs r)
    (hnew : ∀ r, W r → regs' r = regs r) (hdest : ∀ r, W r → call.dest ≠ some r)
    (hlt : ∀ r : Nat, W r → r < caller.nextReg)
    (havoid : ∀ r, ¬W r → caller.Avoids r F.pos → caller.Avoids r q)
    (hcut : ∀ a d, W a → .reg a ∈ call.args → call.dest = some d → caller.Avoids d q) :
    Outside caller callee call site { F with regs := regs, pos := q }
      { F' with regs := regs', pos := q' } := by
  refine ⟨h.func, h.func', h.args, hq', hq, fun r hr => ?_⟩
  by_cases hW : W r
  · rw [subst_reg_of_ne (hdest r hW)]
    exact Or.inl (hnew r hW)
  · rcases h.regs r hr with heq | hav
    · by_cases hread : ∃ a, W a ∧ subst caller callee call (.reg r) = .reg a
      · obtain ⟨a, ha, hs⟩ := hread
        have hne : a ≠ r := fun har => hW (har ▸ ha)
        have hd : call.dest = some r := by
          by_contra hd
          rw [subst_reg_of_ne hd] at hs
          exact hne (Operand.reg.inj hs).symm
        exact Or.inr (hcut a r ha (mem_args_of_subst hd hs (hlt a ha) hne) hd)
      · refine Or.inl (Eq.trans ?_ (heq.trans (hkeep r hW).1.symm))
        generalize subst caller callee call (.reg r) = op at hread
        cases op with
        | reg a => exact (hkeep a fun ha => hread ⟨a, ha, rfl⟩).2
        | _ => rfl
    · exact Or.inr (havoid r hW hav)

/-- An instruction other than the call is done. -/
theorem finish (h : Outside caller callee call site F F')
    (hi : Inlined caller callee f call site.pos b) (hne : F.pos ≠ site.pos) {i : Instr}
    (hinstr : caller.instr? F.pos = some i) (v : M.Value) :
    Outside caller callee call site (F.finish caller v) (F'.finish f v) := by
  obtain ⟨b₀, hb₀, hi₀⟩ := Func.instr?_eq_some_iff.1 hinstr
  obtain ⟨b', hb', hcode, -⟩ := hi.find?_place hb₀ hne
  have hdest' : (f.instr? F'.pos).bind Instr.dest? = i.dest? := by
    rw [h.pos, Func.instr?_eq_some_iff.2 ⟨b', hb', by rw [hcode, hi₀]; rfl⟩]
    simp [callerInstr]
  have hdest : (caller.instr? F.pos).bind Instr.dest? = i.dest? := by rw [hinstr]; rfl
  rw [Frame.finish, Frame.finish, hdest, hdest', h.pos]
  have hq : caller.Reaches ⟨F.pos.label, F.pos.index + 1⟩ := .next h.reached hinstr trivial
  refine h.write (W := fun r => i.dest? = some r) hq (place_next hne).symm ?_ ?_ ?_ ?_
    (fun r hr hav => .next hav hinstr hr)
    fun a d ha harg hd => .next (hi.avoids_dest hd harg h.reached hinstr ha) hinstr ?_
  · intro r hr
    cases hd : i.dest? with
    | none => exact ⟨rfl, rfl⟩
    | some d =>
        have hne' : r ≠ d := fun h' => hr (h' ▸ hd)
        exact ⟨Function.update_of_ne hne' _ _, Function.update_of_ne hne' _ _⟩
  · intro r hr
    rw [hr]
    simp
  · intro r hr hd
    exact hne (hi.caller_checked.def_unique hinstr hr hi.instr?_pos hd)
  · intro r hr
    exact Func.lt_nextReg_of_mem_dests (Func.mem_dests_of_instr? hinstr hr)
  · intro hd'
    exact hne (hi.caller_checked.def_unique hinstr hd' hi.instr?_pos hd)

theorem choose_eq (h : Outside caller callee call site F F')
    (hi : Inlined caller callee f call site.pos b) {b₀ b₁ : Block}
    (hb₀ : caller.body.find? F.pos.label = some b₀) (hend : b₀.instrs[F.pos.index]? = none)
    {l : Label} (hl : l ∈ b₀.terminator.targets) (hb₁ : caller.body.find? l = some b₁) :
    F'.choose ((leadingPhis b₁.instrs).map
      (Phi.rename id (follow caller site.pos b l) (subst caller callee call))) =
        F.choose (leadingPhis b₁.instrs) := by
  have hle : b₀.instrs.length ≤ F.pos.index := List.getElem?_eq_none_iff.1 hend
  have hpos := h.reached.eq_end hi.caller_checked hi.not_declaration hb₀ hend
  rw [Frame.choose_rename (F := F) (fun p hp e he => ?_) fun p hp o ho =>
    h.eval fun r hr => ⟨?_, ?_⟩]
  · simp
  · rw [h.pos]
    exact hi.follow_eq_iff hb₀ hl (hi.caller_checked.labels l b₁ hb₁ _
      (List.mem_append_right _ (Func.mem_of_mem_incoming hp he).2)) hle
  · exact hi.caller_checked.lt_nextReg hb₁ (hr ▸ (Func.mem_of_mem_incoming hp ho).1)
  · rw [hpos]
    exact hi.caller_strict.phi_reads l b₁ hb₁ p hp _ r (hr ▸ ho) b₀ hb₀

/-- An edge of the caller leads to the same block, with the same choice of its phis. -/
theorem enter (h : Outside caller callee call site F F')
    (hi : Inlined caller callee f call site.pos b) {b₀ : Block}
    (hb₀ : caller.body.find? F.pos.label = some b₀) (hend : b₀.instrs[F.pos.index]? = none)
    {l : Label} (hl : l ∈ b₀.terminator.targets) :
    ∃ G G', F.enter caller l = some G ∧ F'.enter f l = some G' ∧
      Outside caller callee call site G G' := by
  obtain ⟨b₁, hb₁⟩ := Option.isSome_iff_exists.1
    (hi.caller_checked.labels _ b₀ hb₀ l (List.mem_append_left _ hl))
  obtain ⟨b', hb', hphis⟩ := hi.find?_entered hb₁
  have hpos := h.reached.eq_end hi.caller_checked hi.not_declaration hb₀ hend
  have hplace : place caller callee call site.pos ⟨l, (leadingPhis b₁.instrs).length⟩ =
      ⟨l, (leadingPhis b₁.instrs).length⟩ := place_of_le fun (hl' : l = site.pos.label) => by
    obtain rfl : b₁ = b := Option.some.inj (hb₁.symm.trans (hl' ▸ hi.block))
    exact hi.not_phi
  have hpath : ∀ ok : Instr → Prop, caller.Path ok F.pos → caller.Path ok ⟨l, 0⟩ :=
    fun ok hp => .edge hb₀ (hpos ▸ hp) hl
  refine ⟨_, _, F.enter_eq hb₁, F'.enter_eq hb', ?_⟩
  rw [hphis, h.choose_eq hi hb₀ hend hl hb₁, List.length_map]
  refine h.write (W := fun r => r ∈ (leadingPhis b₁.instrs).map Phi.dest) ?_ hplace.symm ?_ ?_
    (fun r hr => hi.dest_ne_of_mem_phis hb₁ hr) ?_ ?_ ?_
  · exact .phis hb₁ (hpath _ h.reached) (fun _ _ _ _ => trivial) (Nat.zero_le _) (Nat.le_refl _)
  · intro r hr
    rw [Frame.lookup_choose_eq_none_iff.2 hr]
    exact ⟨rfl, rfl⟩
  · intro r hr
    cases hv : (F.choose (leadingPhis b₁.instrs)).lookup r with
    | none => exact absurd hr (Frame.lookup_choose_eq_none_iff.1 hv)
    | some v => rfl
  · intro r hr
    obtain ⟨n, p, -, hp, rfl⟩ := Func.exists_instr?_of_mem_dests hb₁ hr
    exact Func.lt_nextReg_of_mem_dests (Func.mem_dests_of_instr? hp rfl)
  · intro r hr hav
    refine .phis hb₁ (hpath _ hav) (fun n p _ hn hd => hr ?_) (Nat.zero_le _) (Nat.le_refl _)
    exact List.mem_map.2 ⟨p, List.mem_of_getElem? hn, Option.some.inj hd⟩
  · intro a d ha harg hd
    obtain ⟨n, p, hn, hp, rfl⟩ := Func.exists_instr?_of_mem_dests hb₁ ha
    have hreach : caller.Reaches ⟨l, n⟩ :=
      .phis hb₁ (hpath _ h.reached) (fun _ _ _ _ => trivial) (Nat.zero_le _) (Nat.le_of_lt hn)
    refine .phis hb₁ (hi.avoids_dest hd harg hreach hp rfl) (fun k q _ hk hd' => ?_)
      (Nat.le_of_lt hn) (Nat.le_refl _)
    exact hi.dest_ne_of_mem_phis hb₁
      (List.mem_map.2 ⟨q, List.mem_of_getElem? hk, Option.some.inj hd'⟩) hd

end Outside

end Inline

end KernelIR
