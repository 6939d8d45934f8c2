import KernelIR.Proofs.Memory.Transfer
import Mathlib

/-!
# Loops over bytes

In the round for the offset `i` a loop that counts up has written the bytes below `i`, and one that
counts down has written those above.
-/

namespace KernelIR

variable {address : GlobalId → Nat}
  {external : Word → List Word → Bytes → Option (Word × Bytes)}
  {F E : Frame (byteMachine address external)} {c : MemCall} {f : Func} {lo base : Reg}
  {label pred exit : Label} {w d n i : Nat} {v : Word} {mem : Bytes}

theorem Terminator.act_branch {cond : Operand} {b : Bool} (h : F.eval cond = Word.ofBool b)
    (l l' : Label) :
    (Terminator.branch cond l l').act F.eval = some (.goto (if b then l else l')) := by
  have htruth : (byteMachine address external).truth? (F.eval cond) = some b := by
    rw [h]
    exact Word.truth?_ofBool b
  rw [Terminator.act, htruth]
  rfl

theorem leadingPhis_transferByte (c : MemCall) (base : Reg) (index : Operand) (is : List Instr) :
    leadingPhis (c.transferByte base index ++ is) = [] := by
  rw [MemCall.transferByte]
  cases c.kind <;> rfl

theorem lookup_fst_pair {a b : Label} (x y : Operand) : [(a, x), (b, y)].lookup a = some x := by
  simp

theorem lookup_snd_pair {a b : Label} (h : a ≠ b) (x y : Operand) :
    [(a, x), (b, y)].lookup b = some y := by
  have hne : (b == a) = false := by simpa using h.symm
  simp [List.lookup_cons, hne]

/-- A loop is behind its phi, which chose `k`. -/
structure Round (lo base : Reg) (label : Label) (w : Nat)
    (F : Frame (byteMachine address external)) (k : Nat) (mem : Bytes)
    (s : Frame (byteMachine address external) × (byteMachine address external).Memory) : Prop where
  keeps : F.Keeps lo s.1
  pos : s.1.pos = ⟨label, 1⟩
  counter : s.1.eval (.reg base) = .bits w k
  mem_eq : s.2 = mem

theorem Round.enter (hkeeps : F.Keeps lo E) (hle : lo ≤ base) {b : Block} {ty : Ty}
    {incoming : List (Label × Operand)} {is : List Instr} (hb : f.body.find? label = some b)
    (hphi : b.instrs = .phi ⟨base, ty, incoming⟩ :: is) (his : leadingPhis is = []) {k : Nat}
    {op : Operand} (hop : incoming.lookup E.pos.label = some op) (hk : E.eval op = .bits w k)
    (mem : Bytes) :
    ∃ G, E.enter f label = some G ∧ E.Keeps lo G ∧ Round lo base label w F k mem (G, mem) := by
  have henter := E.enter_of_phi hb hphi his
  have hE : E.Keeps lo { E with pos := ⟨label, 0⟩ } := ⟨rfl, rfl, fun _ _ => rfl⟩
  have hG := hE.advance hle (E.eval op)
  rw [hop] at henter
  refine ⟨_, henter, hG, hkeeps.trans hG, rfl, ?_, rfl⟩
  exact (Frame.eval_advance_self _ _ _).trans hk

/-- The rest of a block is run and the branch at its end taken. -/
theorem Func.Leaves.of_branch {s t : Frame (byteMachine address external) ×
      (byteMachine address external).Memory} {is : List Instr} (h : Computes is s t)
    (hkeeps : s.1.Keeps lo t.1) {b : Block} (hb : f.body.find? s.1.pos.label = some b)
    (his : b.instrs.drop s.1.pos.index = is) {cond : Operand} {l l' : Label}
    (hterm : b.terminator = .branch cond l l') {p : Prop} [Decidable p]
    (hcond : t.1.eval cond = Word.ofBool (decide p)) :
    f.Leaves lo s t (if p then l else l') ∧ t.1.pos.label = s.1.pos.label := by
  obtain ⟨hrun, hlabel, hact⟩ := h.run hb his
  refine ⟨⟨hrun, ?_, hkeeps⟩, hlabel⟩
  rw [hact, hterm, Terminator.act_branch hcond]
  simp only [decide_eq_true_eq]

namespace MemCall

theorem exists_computes_forward (h : c.Loaded lo F w d n v) (hle : lo ≤ base)
    (hindex : F.eval (.reg base) = .bits w i) (hi : i < n) (mem : Bytes) :
    ∃ E, Computes (c.transferByte (base + 3) (.reg base) ++
          [.arith .add (base + 1) c.lenTy (.reg base) (c.const 1),
            .icmp (base + 2) .ult (.reg (base + 1)) c.len])
        (F, mem) (E, Function.update mem (d + i) (c.kind.byteAt v mem i)) ∧
      F.Keeps lo E ∧ E.eval (.reg (base + 1)) = .bits w (i + 1) ∧
      E.eval (.reg (base + 2)) = Word.ofBool (decide (i + 1 < n)) := by
  have hlt := h.len_lt
  have hbelow : (Operand.reg base).Below (base + 3) := .of_lt (Nat.lt_add_of_pos_right (by decide))
  obtain ⟨G, hbyte, hkeeps⟩ :=
    h.computes_transferByte (Nat.le_add_right_of_le hle) hi hindex hbelow mem
  generalize Function.update mem (d + i) (c.kind.byteAt v mem i) = mem' at hbyte ⊢
  have hkeeps' : F.Keeps lo G := hkeeps.mono (Nat.le_add_right_of_le hle)
  let G₁ := G.advance (some (base + 1)) (.bits w (i + 1))
  have hkeeps₁ : F.Keeps lo G₁ := hkeeps'.advance (Nat.le_add_right_of_le hle) _
  have hnext : G₁.eval (.reg (base + 1)) = .bits w (i + 1) := G.eval_advance_self _ _
  have hadd : Word.compute (.arith .add c.lenTy) [G.eval (.reg base), G.eval (c.const 1)] mem' =
      some (.bits w (i + 1), mem') := by
    rw [hkeeps.eval hbelow, hindex, (h.keeps hkeeps').eval_const (by omega), h.len_ty]
    exact Word.compute_add (by omega) mem'
  have hicmp : Word.compute (.icmp .ult) [G₁.eval (.reg (base + 1)), G₁.eval c.len] mem' =
      some (Word.ofBool (decide (i + 1 < n)), mem') := by
    rw [hnext, (h.keeps hkeeps₁).len]
    exact Word.compute_icmp .ult w (i + 1) n mem'
  have hne : Operand.reg (base + 1) ≠ .reg (base + 2) := by simp
  exact ⟨_, hbyte.append (.cons rfl hadd (.cons rfl hicmp .nil)),
    hkeeps₁.advance (Nat.le_add_right_of_le hle) _, (G₁.eval_advance_of_ne _ hne).trans hnext,
    G₁.eval_advance_self _ _⟩

theorem exists_computes_backward (h : c.Loaded lo F w d n v) (hle : lo ≤ base)
    (hindex : F.eval (.reg base) = .bits w (i + 1)) (hi : i < n) (mem : Bytes) :
    ∃ E, Computes (.arith .sub (base + 1) c.lenTy (.reg base) (c.const 1) ::
          (c.transferByte (base + 3) (.reg (base + 1)) ++
            [.icmp (base + 2) .ne (.reg (base + 1)) (c.const 0)]))
        (F, mem) (E, Function.update mem (d + i) (c.kind.byteAt v mem i)) ∧
      F.Keeps lo E ∧ E.eval (.reg (base + 1)) = .bits w i ∧
      E.eval (.reg (base + 2)) = Word.ofBool (decide (i ≠ 0)) := by
  have hlt := h.len_lt
  let F₁ := F.advance (some (base + 1)) (.bits w i)
  have hkeeps₁ : F.Keeps lo F₁ := (Frame.Keeps.refl lo F).advance (Nat.le_add_right_of_le hle) _
  have hnext : F₁.eval (.reg (base + 1)) = .bits w i := F.eval_advance_self _ _
  have hsub : Word.compute (.arith .sub c.lenTy) [F.eval (.reg base), F.eval (c.const 1)] mem =
      some (.bits w i, mem) := by
    rw [hindex, h.eval_const (by omega), h.len_ty]
    exact Word.compute_sub (by omega) (by omega) mem
  have hbelow : (Operand.reg (base + 1)).Below (base + 3) :=
    .of_lt (Nat.add_lt_add_left (by decide) base)
  obtain ⟨G, hbyte, hkeeps⟩ := (h.keeps hkeeps₁).computes_transferByte
    (Nat.le_add_right_of_le hle) hi hnext hbelow mem
  generalize Function.update mem (d + i) (c.kind.byteAt v mem i) = mem' at hbyte ⊢
  have hkeeps' : F.Keeps lo G := hkeeps₁.trans (hkeeps.mono (Nat.le_add_right_of_le hle))
  have hcounter : G.eval (.reg (base + 1)) = .bits w i := (hkeeps.eval hbelow).trans hnext
  have hicmp : Word.compute (.icmp .ne) [G.eval (.reg (base + 1)), G.eval (c.const 0)] mem' =
      some (Word.ofBool (decide (i ≠ 0)), mem') := by
    rw [hcounter, (h.keeps hkeeps').eval_const (by omega)]
    exact Word.compute_icmp .ne w i 0 mem'
  have hne : Operand.reg (base + 1) ≠ .reg (base + 2) := by simp
  exact ⟨_, .cons rfl hsub (hbyte.append (.cons rfl hicmp .nil)),
    hkeeps'.advance (Nat.le_add_right_of_le hle) _, (G.eval_advance_of_ne _ hne).trans hcounter,
    G.eval_advance_self _ _⟩

variable {s : Frame (byteMachine address external) × (byteMachine address external).Memory}

theorem exists_leaves_forward_round (h : c.Loaded lo F w d n v) (hle : lo ≤ base)
    (hb : f.body.find? label = some (c.forwardLoop base label pred exit))
    (hforward : c.kind.Forward v d n) (hi : i < n)
    (hs : Round lo base label w F i (mem.write d 0 i (c.kind.byteAt v mem)) s) :
    ∃ E, f.Leaves lo s (E, mem.write d 0 (i + 1) (c.kind.byteAt v mem))
        (if i + 1 < n then label else exit) ∧
      E.eval (.reg (base + 1)) = .bits w (i + 1) ∧ E.pos.label = label := by
  obtain ⟨G, mem'⟩ := s
  obtain ⟨hG, hpos, hcounter, rfl⟩ := hs
  obtain ⟨E, hcomp, hkeeps, hnext, hmore⟩ :=
    exists_computes_forward (h.keeps hG) hle hcounter hi (mem.write d 0 i (c.kind.byteAt v mem))
  rw [hforward mem i _ hi, mem.update_write_hi d _ (Nat.zero_le i)] at hcomp
  obtain ⟨hleaves, hlabel⟩ := Func.Leaves.of_branch hcomp hkeeps
    (by rw [hpos]; exact hb) (by rw [hpos]; rfl) rfl hmore
  exact ⟨E, hleaves, hnext, by rw [hlabel, hpos]⟩

theorem exists_leaves_backward_round (h : c.Loaded lo F w d n v) (hle : lo ≤ base)
    (hb : f.body.find? label = some (c.backwardLoop base label pred exit))
    (hbackward : c.kind.Backward v d n) (hi : i < n)
    (hs : Round lo base label w F (i + 1) (mem.write d (i + 1) n (c.kind.byteAt v mem)) s) :
    ∃ E, f.Leaves lo s (E, mem.write d i n (c.kind.byteAt v mem)) (if i ≠ 0 then label else exit) ∧
      E.eval (.reg (base + 1)) = .bits w i ∧ E.pos.label = label := by
  obtain ⟨G, mem'⟩ := s
  obtain ⟨hG, hpos, hcounter, rfl⟩ := hs
  obtain ⟨E, hcomp, hkeeps, hnext, hmore⟩ := exists_computes_backward (h.keeps hG) hle hcounter hi
    (mem.write d (i + 1) n (c.kind.byteAt v mem))
  rw [hbackward mem i _ hi, mem.update_write_lo d _ hi] at hcomp
  obtain ⟨hleaves, hlabel⟩ := Func.Leaves.of_branch hcomp hkeeps
    (by rw [hpos]; exact hb) (by rw [hpos]; rfl) rfl hmore
  exact ⟨E, hleaves, hnext, by rw [hlabel, hpos]⟩

/-- The induction is on the number of rounds that follow. -/
theorem exists_leaves_forward_rounds (h : c.Loaded lo F w d n v) (hle : lo ≤ base)
    (hb : f.body.find? label = some (c.forwardLoop base label pred exit)) (hne : pred ≠ label)
    (hforward : c.kind.Forward v d n) {k : Nat} (hk : i + k + 1 = n)
    (hs : Round lo base label w F i (mem.write d 0 i (c.kind.byteAt v mem)) s) :
    ∃ E, f.Leaves lo s (E, mem.write d 0 n (c.kind.byteAt v mem)) exit := by
  induction k generalizing i s with
  | zero =>
      obtain ⟨E, hE, -, -⟩ := exists_leaves_forward_round h hle hb hforward (by omega) hs
      rw [if_neg (by omega)] at hE
      obtain rfl : i + 1 = n := by omega
      exact ⟨E, hE⟩
  | succ k ih =>
      obtain ⟨E, hE, hnext, hlabel⟩ := exists_leaves_forward_round h hle hb hforward (by omega) hs
      rw [if_pos (by omega)] at hE
      obtain ⟨G, hG, hkeeps, hround⟩ := Round.enter (hs.keeps.trans hE.keeps) hle hb rfl
        (leadingPhis_transferByte c _ _ _) (by rw [hlabel]; exact lookup_snd_pair hne _ _) hnext
        (mem.write d 0 (i + 1) (c.kind.byteAt v mem))
      obtain ⟨E', hE'⟩ := ih (by omega) hround
      exact ⟨E', hE.trans (.enter hE.act hG hkeeps hE')⟩

theorem exists_leaves_backward_rounds (h : c.Loaded lo F w d n v) (hle : lo ≤ base)
    (hb : f.body.find? label = some (c.backwardLoop base label pred exit)) (hne : pred ≠ label)
    (hbackward : c.kind.Backward v d n) (hi : i < n)
    (hs : Round lo base label w F (i + 1) (mem.write d (i + 1) n (c.kind.byteAt v mem)) s) :
    ∃ E, f.Leaves lo s (E, mem.write d 0 n (c.kind.byteAt v mem)) exit := by
  induction i generalizing s with
  | zero =>
      obtain ⟨E, hE, -, -⟩ := exists_leaves_backward_round h hle hb hbackward hi hs
      rw [if_neg (by omega)] at hE
      exact ⟨E, hE⟩
  | succ i ih =>
      obtain ⟨E, hE, hnext, hlabel⟩ := exists_leaves_backward_round h hle hb hbackward hi hs
      rw [if_pos (by omega)] at hE
      obtain ⟨G, hG, hkeeps, hround⟩ := Round.enter (hs.keeps.trans hE.keeps) hle hb rfl rfl
        (by rw [hlabel]; exact lookup_snd_pair hne _ _) hnext
        (mem.write d (i + 1) n (c.kind.byteAt v mem))
      obtain ⟨E', hE'⟩ := ih (by omega) hround
      exact ⟨E', hE.trans (.enter hE.act hG hkeeps hE')⟩

theorem exists_leaves_forwardLoop (h : c.Loaded lo F w d n v) (hle : lo ≤ base)
    (hb : f.body.find? label = some (c.forwardLoop base label pred exit)) (hne : pred ≠ label)
    (hforward : c.kind.Forward v d n) (hn : 0 < n) (hact : F.act f mem = some (.goto label))
    (hpred : F.pos.label = pred) :
    ∃ E, f.Leaves lo (F, mem) (E, mem.write d 0 n (c.kind.byteAt v mem)) exit := by
  have hlt := h.len_lt
  obtain ⟨G, hG, hkeeps, hround⟩ := Round.enter (.refl lo F) hle hb rfl
    (leadingPhis_transferByte c _ _ _) (by rw [hpred]; exact lookup_fst_pair _ _)
    (h.eval_const (by omega)) mem
  rw [← mem.write_empty d (c.kind.byteAt v mem) 0] at hround
  obtain ⟨E, hE⟩ := exists_leaves_forward_rounds (k := n - 1) h hle hb hne hforward (by omega)
    hround
  rw [mem.write_empty] at hE
  exact ⟨E, .enter hact hG hkeeps hE⟩

theorem exists_leaves_backwardLoop (h : c.Loaded lo F w d n v) (hle : lo ≤ base)
    (hb : f.body.find? label = some (c.backwardLoop base label pred exit)) (hne : pred ≠ label)
    (hbackward : c.kind.Backward v d n) (hn : 0 < n) (hact : F.act f mem = some (.goto label))
    (hpred : F.pos.label = pred) :
    ∃ E, f.Leaves lo (F, mem) (E, mem.write d 0 n (c.kind.byteAt v mem)) exit := by
  obtain ⟨i, rfl⟩ : ∃ i, n = i + 1 := ⟨n - 1, by omega⟩
  obtain ⟨G, hG, hkeeps, hround⟩ := Round.enter (.refl lo F) hle hb rfl rfl
    (by rw [hpred]; exact lookup_fst_pair _ _) h.len mem
  rw [← mem.write_empty d (c.kind.byteAt v mem) (i + 1)] at hround
  obtain ⟨E, hE⟩ := exists_leaves_backward_rounds h hle hb hne hbackward (Nat.lt_succ_self i)
    hround
  rw [mem.write_empty] at hE
  exact ⟨E, .enter hact hG hkeeps hE⟩

theorem exists_leaves_direction (h : c.Loaded lo F w d n v) (hle : lo ≤ base)
    {backward forward : Label}
    (hb : f.body.find? label = some (c.direction base backward forward)) {s : Nat}
    (hs : v = .bits 64 s) (hact : F.act f mem = some (.goto label)) :
    ∃ E, f.Leaves lo (F, mem) (E, mem) (if s < d then backward else forward) ∧
      E.pos.label = label := by
  have hG := F.enter_of_no_phi hb rfl
  generalize hG' : ({ F with pos := ⟨label, 0⟩ } : Frame (byteMachine address external)) = G at hG
  have hkeeps : F.Keeps lo G := hG' ▸ ⟨rfl, rfl, fun _ _ => rfl⟩
  have hpos : G.pos = ⟨label, 0⟩ := hG' ▸ rfl
  have hicmp : Word.compute (.icmp .ult) [G.eval c.source, G.eval c.dst] mem =
      some (Word.ofBool (decide (s < d)), mem) := by
    rw [(h.keeps hkeeps).source, (h.keeps hkeeps).dst, hs]
    exact Word.compute_icmp .ult 64 s d mem
  have hcomp : Computes [.icmp base .ult c.source c.dst] (G, mem)
      (G.advance (some base) (Word.ofBool (decide (s < d))), mem) := .cons rfl hicmp .nil
  obtain ⟨hleaves, hlabel⟩ := Func.Leaves.of_branch hcomp ((Frame.Keeps.refl lo G).advance hle _)
    (by rw [hpos]; exact hb) (by rw [hpos]; rfl) rfl (G.eval_advance_self _ _)
  exact ⟨_, .enter hact hG hkeeps hleaves, by rw [hlabel, hpos]⟩

/-- The blocks between header and exit write the range. -/
theorem exists_leaves_blocks (h : c.Loaded lo F w d n v) (hle : lo ≤ base) {header first : Label}
    (hb : ∀ e ∈ c.blocks base header first exit, f.body.find? e.1 = some e.2)
    (hlt : header < first) (hn : 0 < n) (hact : F.act f mem = some (.goto first))
    (hheader : F.pos.label = header) :
    ∃ E, f.Leaves lo (F, mem) (E, mem.write d 0 n (c.kind.byteAt v mem)) exit := by
  have hallows := h.allows
  simp only [blocks] at hb
  generalize hkind : c.kind = kind at hallows hb
  rw [← hkind]
  cases hallows with
  | set x =>
      exact exists_leaves_forwardLoop h hle (hb _ List.mem_cons_self) (Nat.ne_of_lt hlt)
        (hkind ▸ MemIntrinsic.forward_set _ d n) hn hact hheader
  | copy hs hd =>
      exact exists_leaves_forwardLoop h hle (hb _ List.mem_cons_self) (Nat.ne_of_lt hlt)
        (hkind ▸ MemIntrinsic.forward_copy hd) hn hact hheader
  | @move s hs =>
      simp only [List.forall_mem_cons] at hb
      obtain ⟨hdirection, hback, hforth, -⟩ := hb
      obtain ⟨E, hE, hlabel⟩ := exists_leaves_direction h hle hdirection rfl hact
      have hEloaded := h.keeps hE.keeps
      by_cases hd : s < d
      · rw [if_pos hd] at hE
        obtain ⟨E', hE'⟩ := exists_leaves_backwardLoop hEloaded (Nat.le_add_right_of_le hle)
          hback (Nat.ne_of_lt (Nat.lt_succ_self first))
          (hkind ▸ MemIntrinsic.backward_move hd n) hn hE.act hlabel
        exact ⟨E', hE.trans hE'⟩
      · rw [if_neg hd] at hE
        obtain ⟨E', hE'⟩ := exists_leaves_forwardLoop hEloaded (Nat.le_add_right_of_le hle)
          hforth (Nat.ne_of_lt (Nat.lt_add_of_pos_right (by decide)))
          (hkind ▸ MemIntrinsic.forward_move (Nat.le_of_not_lt hd) n) hn hE.act hlabel
        exact ⟨E', hE.trans hE'⟩

/-- The guard skips the blocks when there is nothing to write. -/
theorem exists_leaves_guarded (h : c.Loaded lo F w d n v) (hle : lo ≤ base) {first : Label}
    {b : Block} (hindex : F.pos.index = b.instrs.length)
    (hguard : f.body.find? F.pos.label = some (c.guardHeader base first exit b))
    (hb : ∀ e ∈ c.blocks (base + 1) F.pos.label first exit, f.body.find? e.1 = some e.2)
    (hlt : F.pos.label < first) (mem : Bytes) :
    ∃ E, f.Leaves lo (F, mem) (E, mem.write d 0 n (c.kind.byteAt v mem)) exit := by
  have hicmp : Word.compute (.icmp .eq) [F.eval c.len, F.eval (c.const 0)] mem =
      some (Word.ofBool (decide (n = 0)), mem) := by
    rw [h.len, h.eval_const (Nat.two_pow_pos w)]
    exact Word.compute_icmp .eq w n 0 mem
  have hcomp : Computes [.icmp base .eq c.len (c.const 0)] (F, mem)
      (F.advance (some base) (Word.ofBool (decide (n = 0))), mem) := .cons rfl hicmp .nil
  obtain ⟨hleaves, hlabel⟩ := Func.Leaves.of_branch hcomp
    ((Frame.Keeps.refl lo F).advance hle _) hguard
    (by rw [hindex, guardHeader, List.drop_left]) rfl (F.eval_advance_self _ _)
  by_cases hn : n = 0
  · rw [if_pos hn] at hleaves
    rw [hn, mem.write_empty]
    exact ⟨_, hleaves⟩
  · rw [if_neg hn] at hleaves
    obtain ⟨E, hE⟩ := exists_leaves_blocks (h.keeps hleaves.keeps) (Nat.le_add_right_of_le hle)
      hb hlt (Nat.pos_of_ne_zero hn) hleaves.act hlabel
    exact ⟨E, hleaves.trans hE⟩

end MemCall

end KernelIR
