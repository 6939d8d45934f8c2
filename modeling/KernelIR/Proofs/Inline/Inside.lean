import KernelIR.Proofs.Inline.Outside
import Mathlib

/-!
# The callee inside of the caller

While the callee runs, the activation of the callee and that of the caller that waits for it stand
for one activation of the spliced body.
-/

namespace KernelIR

variable {M : Machine}

/-- What the copy does where the callee does `a`. -/
def Splice.action (s : Splice) : Action M → Action M
  | .ret _ => .goto s.continuation
  | a => a.mapLabel s.label

theorem Instr.map_action (i : Instr) (s : Splice) (eval : Operand → M.Value) (mem : M.Memory) :
    (i.act eval mem).map s.action = i.act eval mem := by
  cases i with
  | call c => rfl
  | _ =>
      simp only [act, Option.map_bind, Function.comp_def, Option.map_map]
      rfl

theorem Splice.lookup_returns {s : Splice} {l : Label} {v : Operand} (h : (l, v) ∈ s.returns) :
    s.returns.lookup l = some v := by
  cases hv : s.returns.lookup l with
  | none => simpa using List.lookup_eq_none_iff.1 hv _ h
  | some v' =>
      obtain ⟨l₁, l₂, heq, -⟩ := List.lookup_eq_some_iff.1 hv
      have h' : (l, v') ∈ s.returns := by rw [heq]; simp
      obtain ⟨k, b, value, hb, hret, rfl, rfl⟩ := mem_returns_iff.1 h
      obtain ⟨k', b', value', hb', hret', hk, rfl⟩ := mem_returns_iff.1 h'
      obtain rfl := s.label_injOn (OrderedMap.mem_keys_iff.2 (by rw [hb']; rfl)) hk
      obtain rfl := Option.some.inj (hb.symm.trans hb')
      obtain rfl := Terminator.ret.inj (hret.symm.trans hret')
      rfl

theorem Splice.act_terminator (s : Splice) {t : Terminator} {eval eval' : Operand → M.Value}
    (h : ∀ op ∈ t.operands, eval' (s.operand op) = eval op) :
    (s.terminator t).act eval' = (t.act eval).map s.action := by
  have hmap : ((t.mapOperands s.operand).mapTargets s.label).act eval' =
      (t.act eval).map (Action.mapLabel s.label) := by
    rw [Terminator.act_mapTargets, Terminator.act_mapOperands h]
  cases t with
  | ret value => rfl
  | branch c l l' =>
      refine hmap.trans ?_
      simp only [Terminator.act, Option.map_map]
      rfl
  | _ => rfl

namespace Frame

theorem regs_finish_of_ne {F : Frame M} {f : Func} {r : Reg}
    (h : (f.instr? F.pos).bind Instr.dest? ≠ some r) (v : M.Value) :
    (F.finish f v).regs r = F.regs r := by
  rw [finish]
  split
  · next d hd => exact Function.update_of_ne (fun hr => h (by rw [hd, hr])) _ _
  · rfl

end Frame

namespace Inline

variable {caller callee f : Func} {call : Call} {b : Block}

/-- An activation of the callee, the one of the caller that waits for it, and the one of the
spliced body. -/
structure Inside (caller callee : Func) (call : Call) (site : CallSite) (id : FuncId)
    (G F F' : Frame M) : Prop where
  callee_func : G.func = id
  func : F.func = site.caller
  func' : F'.func = site.caller
  args : F'.args = F.args
  outer_pos : F.pos = site.pos
  outer_reached : caller.Reaches site.pos
  pos : F'.pos = ⟨(copy caller call callee).label G.pos.label, G.pos.index⟩
  reached : callee.Reaches G.pos
  params : ∀ index < callee.params.length,
    F'.eval ((copy caller call callee).operand (.arg index)) = G.eval (.arg index)
  regs : ∀ r, F'.regs ((copy caller call callee).reg r) = G.regs r ∨ callee.Avoids r G.pos
  outer_regs : ∀ r : Nat, r < caller.nextReg → call.dest ≠ some r →
    F'.regs r = F.regs r ∨ caller.Avoids r site.pos

theorem resultRead_eq_id {e₁ e₂ : Label × Operand} {es returns : List (Label × Operand)}
    (hr : returns = e₁ :: e₂ :: es) : resultRead call returns = id := by
  cases hd : call.dest <;> simp [resultRead, hd, hr]

theorem dest_of_mem_resultPhis {returns : List (Label × Operand)} {r : Reg}
    (h : r ∈ (resultPhis call returns).map Phi.dest) : call.dest = some r := by
  unfold resultPhis at h
  split at h
  · next hd => simpa [hd, eq_comm] using h
  · exact nomatch h

theorem leadingPhis_append (ps : List Phi) (is : List Instr) :
    leadingPhis (ps.map .phi ++ is) = ps ++ leadingPhis is := by
  induction ps with
  | nil => rfl
  | cons p ps ih => simp [leadingPhis, ih]

/-- Behind the call, there are no phis but that of the result. -/
theorem Inlined.leadingPhis_tail {pos : Position} (h : Inlined caller callee f call pos b) :
    leadingPhis ((resultPhis call (copy caller call callee).returns).map .phi ++
      (b.instrs.drop (pos.index + 1)).map (callerInstr caller callee call pos b caller.nextLabel)) =
      resultPhis call (copy caller call callee).returns := by
  have hnil : leadingPhis (b.instrs.drop (pos.index + 1)) = [] := by
    rw [← List.length_eq_zero_iff, ← Nat.le_zero]
    by_contra hlt
    have hp := Func.getElem?_leadingPhis (List.getElem?_eq_getElem (Nat.lt_of_not_le hlt))
    rw [List.getElem?_drop] at hp
    have hlt' := h.caller_strict.phis_lead _ b h.block _ _ hp
    have hle := h.not_phi
    omega
  rw [leadingPhis_append, leadingPhis_callerInstr, hnil]
  simp

namespace Inside

variable {site : CallSite} {id : FuncId} {G F F' : Frame M}

theorem eval (h : Inside caller callee call site id G F F') {op : Operand}
    (hreg : ∀ r, op = .reg r → ¬callee.Avoids r G.pos)
    (harg : ∀ index, op = .arg index → index < callee.params.length) :
    F'.eval ((copy caller call callee).operand op) = G.eval op := by
  cases op with
  | reg r => exact (h.regs r).resolve_right (hreg r rfl)
  | arg index => exact h.params index (harg index rfl)
  | _ => rfl

theorem eval_end (h : Inside caller callee call site id G F F')
    (hi : Inlined caller callee f call site.pos b) {b₀ : Block}
    (hb₀ : callee.body.find? G.pos.label = some b₀) (hend : G.pos.index = b₀.instrs.length)
    {op : Operand} (hop : op ∈ b₀.terminator.operands) :
    F'.eval ((copy caller call callee).operand op) = G.eval op := by
  refine h.eval ?_ ?_
  · intro r hr
    have hpos : G.pos = ⟨G.pos.label, b₀.instrs.length⟩ := by rw [← hend]
    rw [hpos]
    exact hi.callee_strict.end_reads _ b₀ hb₀ r
      (List.mem_filterMap.2 ⟨op, hop, Operand.reg?_eq_some_iff.2 hr⟩)
  · intro index hindex
    exact hi.callee_checked.lt_params hb₀ (hindex ▸ List.mem_append_right _ hop)

/-- The copy does what the callee does, but jumps where the callee returns. -/
theorem act (h : Inside caller callee call site id G F F')
    (hi : Inlined caller callee f call site.pos b) (hdef : callee.isDeclaration = false)
    (mem : M.Memory) :
    F'.act f mem = (G.act callee mem).map (copy caller call callee).action := by
  obtain ⟨b₀, hb₀, hle⟩ := h.reached.block hi.callee_checked hdef
  simp only [Frame.act, h.pos, hi.find?_copy hb₀, hb₀, Option.bind_some, Splice.block,
    List.getElem?_map]
  cases hi₀ : b₀.instrs[G.pos.index]? with
  | none =>
      have hend : G.pos.index = b₀.instrs.length :=
        Nat.le_antisymm hle (List.getElem?_eq_none_iff.1 hi₀)
      exact Splice.act_terminator _ fun op hop => h.eval_end hi hb₀ hend hop
  | some i =>
      simp only [Option.map_some, Splice.instr, Instr.act_mapPhiLabels]
      by_cases hphi : ∃ p, i = .phi p
      · obtain ⟨p, rfl⟩ := hphi
        rfl
      · rw [Instr.map_action]
        refine (Instr.act_mapOperands G.eval F'.eval (fun _ => rfl) (fun op hop => ?_) mem).trans
          (Instr.act_mapDest _ _ _ _)
        rw [Instr.operands_mapDest] at hop
        refine h.eval ?_ ?_
        · intro r hr
          exact hi.callee_strict.reads G.pos i (Func.instr?_eq_some_iff.2 ⟨b₀, hb₀, hi₀⟩)
            (fun p hp => hphi ⟨p, hp⟩) r
            (List.mem_filterMap.2 ⟨op, hop, Operand.reg?_eq_some_iff.2 hr⟩)
        · intro index hindex
          exact hi.callee_checked.lt_params hb₀ (hindex ▸ List.mem_append_left _
            (List.mem_flatMap.2 ⟨i, List.mem_of_getElem? hi₀, hop⟩))

/-- Both write the same values to corresponding registers, and the copy writes to no register of
the caller. -/
theorem write (h : Inside caller callee call site id G F F')
    (hi : Inlined caller callee f call site.pos b) {q q' : Position} {W : Reg → Prop}
    {regs regs' : Reg → M.Value} (hq : callee.Reaches q)
    (hq' : q' = ⟨(copy caller call callee).label q.label, q.index⟩)
    (hkeep : ∀ r, ¬W r → regs r = G.regs r ∧
      regs' ((copy caller call callee).reg r) = F'.regs ((copy caller call callee).reg r))
    (hnew : ∀ r, W r → regs' ((copy caller call callee).reg r) = regs r)
    (houter : ∀ r : Nat, r < caller.nextReg → regs' r = F'.regs r)
    (havoid : ∀ r, ¬W r → callee.Avoids r G.pos → callee.Avoids r q) :
    Inside caller callee call site id { G with regs := regs, pos := q } F
      { F' with regs := regs', pos := q' } := by
  refine ⟨h.callee_func, h.func, h.func', h.args, h.outer_pos, h.outer_reached, hq', hq, ?_, ?_, ?_⟩
  · intro index hindex
    refine Eq.trans ?_ (h.params index hindex)
    simp only [copy, Splice.operand]
    cases harg : call.args[index]? with
    | none => rfl
    | some op =>
        cases op with
        | reg a =>
            have hmem : Operand.reg a ∈ b.operands :=
              List.mem_append_left _ (List.mem_flatMap.2 ⟨_, List.mem_of_getElem? hi.call_at,
                List.mem_append_right _ (List.mem_of_getElem? harg)⟩)
            exact houter a (hi.caller_checked.lt_nextReg hi.block hmem)
        | _ => rfl
  · intro r
    by_cases hW : W r
    · exact Or.inl (hnew r hW)
    · obtain ⟨hr, hr'⟩ := hkeep r hW
      rcases h.regs r with heq | hav
      · exact Or.inl (hr'.trans (heq.trans hr.symm))
      · exact Or.inr (havoid r hW hav)
  · intro r hr hd
    exact (h.outer_regs r hr hd).imp_left (houter r hr).trans

theorem reg_injective (s : Splice) {r r' : Nat} (h : s.reg r = s.reg r') : r = r' :=
  Nat.add_left_cancel h

/-- An instruction of the callee is done. -/
theorem finish (h : Inside caller callee call site id G F F')
    (hi : Inlined caller callee f call site.pos b) {i : Instr}
    (hinstr : callee.instr? G.pos = some i) (v : M.Value) :
    Inside caller callee call site id (G.finish callee v) F (F'.finish f v) := by
  obtain ⟨b₀, hb₀, hi₀⟩ := Func.instr?_eq_some_iff.1 hinstr
  have hcode : f.instr? F'.pos = some ((copy caller call callee).instr i) := by
    rw [h.pos, Func.instr?_eq_some_iff]
    exact ⟨_, hi.find?_copy hb₀, by simp [Splice.block, hi₀]⟩
  have hdest : (callee.instr? G.pos).bind Instr.dest? = i.dest? := by rw [hinstr]; rfl
  have hdest' : (f.instr? F'.pos).bind Instr.dest? =
      i.dest?.map (copy caller call callee).reg := by
    rw [hcode]
    simp [Splice.instr]
  have hq : callee.Reaches ⟨G.pos.label, G.pos.index + 1⟩ := .next h.reached hinstr trivial
  rw [Frame.finish, Frame.finish, hdest, hdest', h.pos]
  refine h.write hi (W := fun r => i.dest? = some r) hq rfl ?_ ?_ ?_
    fun r hr hav => .next hav hinstr hr
  · intro r hr
    cases hd : i.dest? with
    | none => exact ⟨rfl, rfl⟩
    | some d =>
        have hne : r ≠ d := fun h' => hr (h' ▸ hd)
        have hne' : (copy caller call callee).reg r ≠ (copy caller call callee).reg d :=
          fun h' => hne (reg_injective _ h')
        exact ⟨Function.update_of_ne hne _ _, Function.update_of_ne hne' _ _⟩
  · intro r hr
    rw [hr]
    simp
  · intro r hr
    cases hd : i.dest? with
    | none => rfl
    | some d => exact Function.update_of_ne (Nat.ne_of_lt (Nat.lt_of_lt_of_le hr
        (Nat.le_add_right _ d))) _ _

theorem leadingPhis_instr (s : Splice) (is : List Instr) :
    leadingPhis (is.map s.instr) = (leadingPhis is).map (Phi.rename s.reg s.label s.operand) := by
  refine leadingPhis_map ?_ ?_ is
  · intro p
    simp [Splice.instr, Instr.mapDest, Instr.mapPhiLabels, Instr.mapOperands, Phi.rename]
  · intro i hi p
    cases i with
    | phi q => exact absurd rfl (hi q)
    | _ =>
        intro h
        cases h

theorem lookup_reg (s : Splice) (es : List (Reg × M.Value)) (r : Reg) :
    (es.map fun e => (s.reg e.1, e.2)).lookup (s.reg r) = es.lookup r := by
  induction es with
  | nil => rfl
  | cons e es ih =>
      obtain ⟨k, v⟩ := e
      by_cases hk : r = k
      · simp [hk]
      · have hne : (r == k) = false := by simpa using hk
        have hne' : (s.reg r == s.reg k) = false := by
          simpa using fun h' => hk (reg_injective s h')
        simp [List.lookup_cons, hne, hne', ih]

theorem lookup_reg_of_lt (s : Splice) (es : List (Reg × M.Value)) {r : Nat} (hr : r < s.regBase) :
    (es.map fun e => (s.reg e.1, e.2)).lookup r = none := by
  simp only [List.lookup_eq_none_iff, bne_iff_ne, List.mem_map]
  rintro _ ⟨e, -, rfl⟩
  exact Nat.ne_of_lt (Nat.lt_of_lt_of_le hr (Nat.le_add_right _ e.1))

/-- An edge of the callee leads to the copy of the block, with the same choice of its phis. -/
theorem enter (h : Inside caller callee call site id G F F')
    (hi : Inlined caller callee f call site.pos b) (hdef : callee.isDeclaration = false)
    {b₀ : Block} (hb₀ : callee.body.find? G.pos.label = some b₀)
    (hend : b₀.instrs[G.pos.index]? = none) {l : Label} (hl : l ∈ b₀.terminator.targets) :
    ∃ G₁ F₁, G.enter callee l = some G₁ ∧
      F'.enter f ((copy caller call callee).label l) = some F₁ ∧
        Inside caller callee call site id G₁ F F₁ := by
  obtain ⟨b₁, hb₁⟩ := Option.isSome_iff_exists.1
    (hi.callee_checked.labels _ b₀ hb₀ l (List.mem_append_left _ hl))
  have hpos := h.reached.eq_end hi.callee_checked hdef hb₀ hend
  have hphis := leadingPhis_instr (copy caller call callee) b₁.instrs
  have hchoose : F'.choose (leadingPhis ((copy caller call callee).block b₁).instrs) =
      (G.choose (leadingPhis b₁.instrs)).map
        fun e => ((copy caller call callee).reg e.1, e.2) := by
    rw [Splice.block, hphis, Frame.choose_rename (F := G) (fun p hp e he => ?_) fun p hp o ho =>
      h.eval (fun r hr => ?_) fun index hindex => ?_]
    · rw [h.pos]
      refine ⟨fun heq => (copy caller call callee).label_injOn ?_ heq, fun heq => by rw [heq]⟩
      exact OrderedMap.contains_iff.1 (hi.callee_checked.labels l b₁ hb₁ _
        (List.mem_append_right _ (Func.mem_of_mem_incoming hp he).2))
    · rw [hpos]
      exact hi.callee_strict.phi_reads l b₁ hb₁ p hp _ r (hr ▸ ho) b₀ hb₀
    · exact hi.callee_checked.lt_params hb₁ (hindex ▸ (Func.mem_of_mem_incoming hp ho).1)
  refine ⟨_, _, G.enter_eq hb₁, F'.enter_eq (hi.find?_copy hb₁), ?_⟩
  rw [hchoose, Splice.block, hphis, List.length_map]
  have hpath : ∀ ok : Instr → Prop, callee.Path ok G.pos → callee.Path ok ⟨l, 0⟩ :=
    fun ok hp => .edge hb₀ (hpos ▸ hp) hl
  refine h.write hi (W := fun r => r ∈ (leadingPhis b₁.instrs).map Phi.dest) ?_ rfl ?_ ?_ ?_ ?_
  · exact .phis hb₁ (hpath _ h.reached) (fun _ _ _ _ => trivial) (Nat.zero_le _) (Nat.le_refl _)
  · intro r hr
    rw [lookup_reg, Frame.lookup_choose_eq_none_iff.2 hr]
    exact ⟨rfl, rfl⟩
  · intro r hr
    rw [lookup_reg]
    cases hv : (G.choose (leadingPhis b₁.instrs)).lookup r with
    | none => exact absurd hr (Frame.lookup_choose_eq_none_iff.1 hv)
    | some v => rfl
  · intro r hr
    rw [lookup_reg_of_lt (copy caller call callee) _ hr]
    rfl
  · intro r hr hav
    refine .phis hb₁ (hpath _ hav) (fun n p _ hn hd => hr ?_) (Nat.zero_le _) (Nat.le_refl _)
    exact List.mem_map.2 ⟨p, List.mem_of_getElem? hn, Option.some.inj hd⟩

/-- The value that is read in place of the result, once the edge behind the copy is taken. -/
theorem eval_result (h : Inside caller callee call site id G F F') {value : Option Operand}
    {b₀ : Block} (hb₀ : callee.body.find? G.pos.label = some b₀)
    (hret : b₀.terminator = .ret value) {d : Reg} (hd : call.dest = some d) :
    M.eval F'.args (fun r => ((F'.choose (resultPhis call (copy caller call callee).returns)).lookup
      r).getD (F'.regs r)) (subst caller callee call (.reg d)) =
      F'.eval ((value.map (copy caller call callee).operand).getD .undefined) := by
  have hmem : ((copy caller call callee).label G.pos.label,
      (value.map (copy caller call callee).operand).getD .undefined) ∈
        (copy caller call callee).returns :=
    Splice.mem_returns_iff.2 ⟨_, b₀, value, hb₀, hret, rfl, rfl⟩
  unfold subst
  match hr : (copy caller call callee).returns with
  | [] =>
      rw [hr] at hmem
      exact nomatch hmem
  | [(l, y)] =>
      rw [hr] at hmem
      obtain ⟨-, hy⟩ := Prod.mk.inj (List.mem_singleton.1 hmem)
      rw [hy]
      simp only [resultPhis, resultRead, hd, Operand.replaceReg, if_true]
      rfl
  | e₁ :: e₂ :: es =>
      have hphis : resultPhis call (copy caller call callee).returns =
          [⟨d, call.ty, (copy caller call callee).returns⟩] := by simp [resultPhis, hd, hr]
      have hlookup := Splice.lookup_returns hmem
      rw [← hr, hphis, resultRead_eq_id hr]
      simp [Machine.eval, Frame.choose, h.pos, hlookup]

/-- A return of the callee becomes a jump behind the call. -/
theorem ret (h : Inside caller callee call site id G F F')
    (hi : Inlined caller callee f call site.pos b) {b₀ : Block}
    (hb₀ : callee.body.find? G.pos.label = some b₀) (hend : G.pos.index = b₀.instrs.length)
    {value : Option Operand} (hret : b₀.terminator = .ret value) :
    ∃ F₁, F'.enter f caller.nextLabel = some F₁ ∧ Outside caller callee call site
      (F.finish caller ((value.map G.eval).getD M.undefined)) F₁ := by
  have hx : F'.eval ((value.map (copy caller call callee).operand).getD .undefined) =
      (value.map G.eval).getD M.undefined := by
    cases value with
    | none => rfl
    | some op => exact h.eval_end hi hb₀ hend (by simp [hret, Terminator.operands])
  have hdest : (caller.instr? F.pos).bind Instr.dest? = call.dest := by
    rw [h.outer_pos, hi.instr?_pos]
    rfl
  have hphis := hi.leadingPhis_tail
  generalize hv : (value.map G.eval).getD M.undefined = v at hx
  have hpos : (F.finish caller v).pos = ⟨site.pos.label, site.pos.index + 1⟩ := by
    rw [Frame.finish, h.outer_pos]
  refine ⟨_, F'.enter_eq hi.find?_tail, h.func, h.func', h.args, ?_, ?_, fun r hr => ?_⟩
  · have hplace : place caller callee call site.pos ⟨site.pos.label, site.pos.index + 1⟩ =
        ⟨caller.nextLabel, (resultPhis call (copy caller call callee).returns).length +
          (site.pos.index + 1 - (site.pos.index + 1))⟩ := place_of_lt rfl (Nat.lt_succ_self _)
    rw [hpos, hphis, hplace]
    simp
  · rw [hpos]
    exact .next h.outer_reached hi.instr?_pos trivial
  · rw [hphis, hpos]
    by_cases hd : call.dest = some r
    · refine Or.inl ((h.eval_result hb₀ hret hd).trans (hx.trans ?_))
      rw [Frame.finish, hdest, hd]
      simp
    · rw [subst_reg_of_ne hd, Frame.regs_finish_of_ne (hdest ▸ hd)]
      refine (h.outer_regs r hr hd).imp (fun heq => Eq.trans ?_ heq) fun hav =>
        .next hav hi.instr?_pos hd
      have hnone : (F'.choose (resultPhis call (copy caller call callee).returns)).lookup r =
          none := Frame.lookup_choose_eq_none_iff.2 fun hmem => hd (dest_of_mem_resultPhis hmem)
      simp [Frame.eval, Machine.eval, hnone]

end Inside

/-- The parameters have the values of the arguments that are read in their place. -/
theorem Outside.eval_arg {site : CallSite} {F F' : Frame M}
    (h : Outside caller callee call site F F') (hi : Inlined caller callee f call site.pos b)
    (hpos : F.pos = site.pos) (index : Nat) :
    F'.eval ((copy caller call callee).operand (.arg index)) =
      (call.args.map F.eval)[index]?.getD M.undefined := by
  simp only [copy, Splice.operand, List.getElem?_map]
  cases harg : call.args[index]? with
  | none => rfl
  | some op =>
      have hmem := List.mem_of_getElem? harg
      have hread : op ∈ (Instr.call call).operands := List.mem_append_right _ hmem
      have heval : F'.eval (subst caller callee call op) = F.eval op := h.eval fun r hr => by
        subst hr
        refine ⟨hi.caller_checked.lt_nextReg hi.block (List.mem_append_left _
          (List.mem_flatMap.2 ⟨_, List.mem_of_getElem? hi.call_at, hread⟩)), ?_⟩
        rw [hpos]
        exact hi.caller_strict.reads site.pos _ hi.instr?_pos (fun _ h => by cases h) r
          (List.mem_filterMap.2 ⟨.reg r, hread, rfl⟩)
      rw [subst_of_ne fun d hd heq => hi.dest_not_mem_args hd (heq ▸ hmem)] at heval
      exact heval

/-- The call becomes a jump into the copy. -/
theorem Outside.enter_copy {site : CallSite} {F F' : Frame M} (id : FuncId)
    (h : Outside caller callee call site F F') (hi : Inlined caller callee f call site.pos b)
    (hdef : callee.isDeclaration = false) (hpos : F.pos = site.pos) (mem : M.Memory) :
    F.act caller mem = some (.call ⟨F.eval call.callee.target, call.args.map F.eval⟩) ∧
      ∃ l G', F'.act f mem = some (.goto l) ∧ F'.enter f l = some G' ∧
        Inside caller callee call site id (.start id (call.args.map F.eval)) F G' := by
  have hplace : F'.pos = site.pos := by
    rw [h.pos, hpos, place_of_le fun _ => Nat.le_refl _]
  obtain ⟨b₀, hb₀⟩ := Option.isSome_iff_exists.1 (hi.callee_checked.entry hdef)
  have hphis : leadingPhis ((copy caller call callee).block b₀).instrs = [] := by
    rw [Splice.block, Inside.leadingPhis_instr, hi.callee_strict.no_entry_phi b₀ hb₀]
    rfl
  refine ⟨by simp only [Frame.act, hpos, hi.block, Option.bind_some, hi.call_at]; rfl,
    (copy caller call callee).label .entry, _, ?_, F'.enter_eq (hi.find?_copy hb₀), ?_⟩
  · simp only [Frame.act, hplace, hi.find?_head, Option.bind_some, List.getElem?_map,
      List.getElem?_take_eq_none (Nat.le_refl _)]
    rfl
  · rw [hphis]
    refine ⟨rfl, h.func, h.func', h.args, hpos, hpos ▸ h.reached, rfl, .entry, ?_,
      fun _ => Or.inr .entry, ?_⟩
    · intro index _
      exact h.eval_arg hi hpos index
    · intro r hr hd
      have hregs := h.regs r hr
      rw [subst_reg_of_ne hd, hpos] at hregs
      exact hregs

end Inline

end KernelIR
