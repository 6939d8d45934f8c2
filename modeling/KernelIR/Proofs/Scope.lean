import KernelIR.Proofs.Code
import KernelIR.Proofs.Phis
import Mathlib

/-!
# Code in scope

Code is well scoped when it defines no register twice, refers to nothing that is not there, and can
be ranked: a result ranks above what its instruction reads, unless that is a phi.  The ranks are
what lets a value be read in the place of a register.  Each way of changing code has one lemma.
-/

namespace KernelIR

namespace Instr

@[simp] theorem isPhi_bare (i : Instr) : i.bare.isPhi = i.isPhi :=
  isPhi_mapPhiLabels _ i

theorem mem_mentions_of_mem_operands {i : Instr} {op : Operand} (h : op ∈ i.operands) :
    op ∈ i.mentions := by
  cases i with
  | call c =>
      rcases List.mem_append.1 h with h | h
      · cases hc : c.callee with
        | indirect target =>
            rw [hc, Callee.operands, List.mem_singleton] at h
            simp [mentions, hc, Callee.target, h]
        | _ => simp [hc, Callee.operands] at h
      · exact List.mem_cons_of_mem _ h
  | _ => exact h

/-- But for the target of a call, operands are all that is mentioned. -/
theorem mem_operands_or_of_mem_mentions {i : Instr} {op : Operand} (h : op ∈ i.mentions) :
    op ∈ i.operands ∨ ∃ id, op = .func id := by
  cases i with
  | call c =>
      rcases List.mem_cons.1 h with rfl | h
      · cases hc : c.callee with
        | indirect target => exact Or.inl (by simp [operands, hc, Callee.operands, Callee.target])
        | direct id | cast id => exact Or.inr ⟨id, rfl⟩
      · exact Or.inl (List.mem_append_right _ h)
  | _ => exact Or.inl h

theorem mem_reads_iff {i : Instr} {r : Reg} : r ∈ i.reads ↔ .reg r ∈ i.mentions := by
  have hreads : r ∈ i.reads ↔ .reg r ∈ i.operands := by simp [reads]
  rw [hreads]
  refine ⟨mem_mentions_of_mem_operands, fun h => ?_⟩
  obtain h | ⟨id, hid⟩ := mem_operands_or_of_mem_mentions h
  · exact h
  · cases hid

theorem mentions_mapOperands {g : Operand → Operand} (hg : ∀ id, g (.func id) = .func id)
    (i : Instr) : (i.mapOperands g).mentions = i.mentions.map g := by
  cases i with
  | call c => cases hc : c.callee <;> simp [mentions, mapOperands, Callee.mapOperands, hc,
      Callee.target, hg]
  | _ => simp [mentions, mapOperands, operands]

@[simp] theorem mentions_mapDest (g : Reg → Reg) (i : Instr) :
    (i.mapDest g).mentions = i.mentions := by
  cases i <;> rfl

theorem exists_of_mapOperands_eq_call {g : Operand → Operand} {i : Instr} {c : Call}
    (h : i.mapOperands g = call c) :
    ∃ c₀, i = call c₀ ∧ c.callee = c₀.callee.mapOperands g ∧ c.dest = c₀.dest := by
  cases i with
  | call c₀ =>
      cases h
      exact ⟨c₀, rfl, rfl, rfl⟩
  | _ => cases h

end Instr

/-- The registers that code defines. -/
def destsOf (code : List Instr) : List Reg := code.filterMap Instr.dest?

@[simp] theorem destsOf_append (code code' : List Instr) :
    destsOf (code ++ code') = destsOf code ++ destsOf code' :=
  List.filterMap_append

theorem mem_destsOf {code : List Instr} {r : Reg} :
    r ∈ destsOf code ↔ ∃ i ∈ code, i.dest? = some r :=
  List.mem_filterMap

theorem destsOf_perm {code code' : List Instr} (h : code.Perm code') :
    (destsOf code).Perm (destsOf code') :=
  h.filterMap _

theorem destsOf_map {g : Instr → Instr} (hg : ∀ i, (g i).dest? = i.dest?) (code : List Instr) :
    destsOf (code.map g) = destsOf code := by
  rw [destsOf, List.filterMap_map]
  exact congrArg (fun h => code.filterMap h) (funext hg)

/-- A register that is defined, a parameter that is there, or something else that is live. -/
def Operand.InScope (live : Operand → Prop) (params : Nat) (dests : List Reg) : Operand → Prop
  | .reg r => r ∈ dests
  | .arg index => index < params
  | op => live op

theorem Operand.InScope.mono {live : Operand → Prop} {params : Nat} {dests dests' : List Reg}
    {op : Operand} (h : op.InScope live params dests)
    (hdests : ∀ r, op = .reg r → r ∈ dests → r ∈ dests') : op.InScope live params dests' := by
  cases op with
  | reg r => exact hdests r rfl h
  | _ => exact h

/-- `rank` puts each result above what its instruction reads, but for phis. -/
def RankedBy (rank : Reg → Nat) (code : List Instr) : Prop :=
  ∀ i ∈ code, i.isPhi = false → ∀ r, i.dest? = some r → ∀ s, .reg s ∈ i.mentions → rank s < rank r

/-- No register is defined twice, and all that is referred to is there. -/
structure Scoped (live : Operand → Prop) (params : Nat) (code : List Instr)
    (exits : List Operand) : Prop where
  nodup : (destsOf code).Nodup
  mentions : ∀ i ∈ code, ∀ op ∈ i.mentions, op.InScope live params (destsOf code)
  exits : ∀ op ∈ exits, op.InScope live params (destsOf code)

structure WellScoped (live : Operand → Prop) (params : Nat) (code : List Instr)
    (exits : List Operand) : Prop where
  nodup : (destsOf code).Nodup
  mentions : ∀ i ∈ code, ∀ op ∈ i.mentions, op.InScope live params (destsOf code)
  exits : ∀ op ∈ exits, op.InScope live params (destsOf code)
  ranked : ∃ rank, RankedBy rank code
  resolved : ∀ c, .call c ∈ code → ∃ id, c.callee.resolve? = some id

theorem mem_destsOf_cons {i : Instr} {rest : List Instr} {s : Reg} (hs : s ∈ destsOf (i :: rest))
    (hne : i.dest? ≠ some s) : s ∈ destsOf rest := by
  obtain ⟨j, hj, hd⟩ := mem_destsOf.1 hs
  rcases List.mem_cons.1 hj with rfl | hj
  · exact absurd hd hne
  · exact mem_destsOf.2 ⟨j, hj, hd⟩

theorem Operand.replaceReg_func (r : Reg) (value : Operand) (id : FuncId) :
    replaceReg r value (.func id) = .func id := by
  simp [replaceReg]

namespace Splice

variable {s : Splice}

theorem dest?_paste (s : Splice) (i : Instr) : (s.paste i).dest? = i.dest?.map s.reg := by
  simp [paste]

theorem mentions_paste (s : Splice) (i : Instr) :
    (s.paste i).mentions = i.mentions.map s.operand := by
  rw [paste, Instr.mentions_mapOperands fun _ => rfl, Instr.mentions_mapDest]

theorem destsOf_paste (s : Splice) (inner : List Instr) :
    destsOf (inner.map s.paste) = (destsOf inner).map s.reg := by
  rw [destsOf, destsOf, List.filterMap_map, List.map_filterMap]
  exact congrArg (fun g => inner.filterMap g) (funext (dest?_paste s))

/-- What a copy reads: a register of the copy, an argument of the call, or nothing of the caller. -/
theorem operand_eq_reg {o : Operand} {y : Reg} (h : s.operand o = .reg y) :
    (∃ r, o = .reg r ∧ y = s.regBase + r) ∨ .reg y ∈ s.args := by
  cases o with
  | reg r =>
      cases h
      exact Or.inl ⟨r, rfl, rfl⟩
  | arg index =>
      refine Or.inr ?_
      cases ha : s.args[index]? with
      | none => simp [operand, ha] at h
      | some a =>
          rw [operand, ha, Option.getD_some] at h
          exact h ▸ List.mem_of_getElem? ha
  | _ => cases h

end Splice

namespace Scoped

variable {live : Operand → Prop} {params : Nat} {code rest : List Instr} {exits : List Operand}
  {i : Instr} {r : Reg}

theorem wellScoped (h : Scoped live params code exits) (hranked : ∃ rank, RankedBy rank code)
    (hresolved : ∀ c, .call c ∈ code → ∃ id, c.callee.resolve? = some id) :
    WellScoped live params code exits :=
  ⟨h.nodup, h.mentions, h.exits, hranked, hresolved⟩

theorem of_perm {code' : List Instr} {exits' : List Operand} (h : Scoped live params code exits)
    (hcode : code.Perm code') (hexits : exits.Perm exits') : Scoped live params code' exits' := by
  have hdests := destsOf_perm hcode
  refine ⟨hdests.nodup_iff.1 h.nodup, fun i hi op hop => ?_, fun op hop => ?_⟩
  · exact (h.mentions i (hcode.mem_iff.2 hi) op hop).mono fun r _ hr => hdests.mem_iff.1 hr
  · exact (h.exits op (hexits.mem_iff.2 hop)).mono fun r _ hr => hdests.mem_iff.1 hr

theorem mono {live' : Operand → Prop} (h : Scoped live params code exits)
    (hlive : ∀ op, op ∈ code.flatMap Instr.mentions ∨ op ∈ exits → live op → live' op) :
    Scoped live' params code exits := by
  have hscope : ∀ op : Operand, op ∈ code.flatMap Instr.mentions ∨ op ∈ exits →
      op.InScope live params (destsOf code) → op.InScope live' params (destsOf code) := by
    intro op hmem hop
    cases op with
    | reg _ | arg _ => exact hop
    | _ => exact hlive _ hmem hop
  exact ⟨h.nodup, fun i hi op hop =>
      hscope op (Or.inl (List.mem_flatMap.2 ⟨i, hi, hop⟩)) (h.mentions i hi op hop),
    fun op hop => hscope op (Or.inr hop) (h.exits op hop)⟩

/-- What is mentioned is there. -/
theorem inScope (h : Scoped live params code exits) {op : Operand}
    (hop : op ∈ code.flatMap Instr.mentions ∨ op ∈ exits) :
    op.InScope live params (destsOf code) := by
  rcases hop with hop | hop
  · obtain ⟨i, hi, hop⟩ := List.mem_flatMap.1 hop
    exact h.mentions i hi op hop
  · exact h.exits op hop

/-- An instruction whose result nobody reads may go. -/
theorem drop (h : Scoped live params (i :: rest) exits)
    (hunread : ∀ r, i.dest? = some r → (∀ j ∈ rest, .reg r ∉ j.mentions) ∧ .reg r ∉ exits) :
    Scoped live params rest exits := by
  have hnodup : (destsOf rest).Nodup :=
    h.nodup.sublist ((List.sublist_cons_self i rest).filterMap _)
  refine ⟨hnodup, fun j hj op hop => ?_, fun op hop => ?_⟩
  · refine (h.mentions j (List.mem_cons_of_mem _ hj) op hop).mono fun s hs hmem => ?_
    exact mem_destsOf_cons hmem fun hd => (hunread s hd).1 j hj (hs ▸ hop)
  · refine (h.exits op hop).mono fun s hs hmem => ?_
    exact mem_destsOf_cons hmem fun hd => (hunread s hd).2 (hs ▸ hop)

/-- A result may be read as another value; its instruction goes. -/
theorem subst (h : Scoped live params (i :: rest) exits) (hr : i.dest? = some r) {value : Operand}
    (hvalue : value.InScope live params (destsOf (i :: rest))) (hne : value ≠ .reg r) :
    Scoped live params (rest.map (Instr.mapOperands (Operand.replaceReg r value)))
      (exits.map (Operand.replaceReg r value)) := by
  have hdests :
      destsOf (rest.map (Instr.mapOperands (Operand.replaceReg r value))) = destsOf rest :=
    destsOf_map (Instr.dest?_mapOperands _) rest
  have hother : ∀ op : Operand, op ≠ .reg r → op.InScope live params (destsOf (i :: rest)) →
      op.InScope live params (destsOf rest) := fun op hop hin =>
    hin.mono fun s hs hmem => mem_destsOf_cons hmem fun hd =>
      hop (hs.trans (congrArg _ (Option.some.inj (hd.symm.trans hr))))
  have hscope : ∀ op : Operand, op.InScope live params (destsOf (i :: rest)) →
      (Operand.replaceReg r value op).InScope live params (destsOf rest) := by
    intro op hop
    rw [Operand.replaceReg]
    split_ifs with heq
    · exact hother value hne hvalue
    · exact hother op heq hop
  refine ⟨?_, fun j hj op hop => ?_, fun op hop => ?_⟩
  · rw [hdests]
    exact h.nodup.sublist ((List.sublist_cons_self i rest).filterMap _)
  · obtain ⟨j₀, hj₀, rfl⟩ := List.mem_map.1 hj
    rw [Instr.mentions_mapOperands (Operand.replaceReg_func r value)] at hop
    obtain ⟨op₀, hop₀, rfl⟩ := List.mem_map.1 hop
    rw [hdests]
    exact hscope op₀ (h.mentions j₀ (List.mem_cons_of_mem _ hj₀) op₀ hop₀)
  · obtain ⟨op₀, hop₀, rfl⟩ := List.mem_map.1 hop
    rw [hdests]
    exact hscope op₀ (h.exits op₀ hop₀)

/-- Code with fresh results may come in. -/
theorem append (h : Scoped live params code exits) {base : Reg} {new : List Instr}
    {newExits : List Operand} (hbase : ∀ r ∈ destsOf code, r < base) (hnodup : (destsOf new).Nodup)
    (hfresh : ∀ r ∈ destsOf new, base ≤ r)
    (hmentions : ∀ i ∈ new, ∀ op ∈ i.mentions, op.InScope live params (destsOf (new ++ code)))
    (hexits : ∀ op ∈ newExits, op.InScope live params (destsOf (new ++ code))) :
    Scoped live params (new ++ code) (newExits ++ exits) := by
  have hold : ∀ op : Operand, op.InScope live params (destsOf code) →
      op.InScope live params (destsOf (new ++ code)) := fun op hop =>
    hop.mono fun r _ hr => by
      rw [destsOf_append]
      exact List.mem_append_right _ hr
  refine ⟨?_, fun i hi => ?_, fun op hop => ?_⟩
  · rw [destsOf_append]
    exact List.nodup_append.2 ⟨hnodup, h.nodup, fun r hr r' hr' heq =>
      absurd (hbase r' hr') (Nat.not_lt.2 (heq ▸ hfresh r hr))⟩
  · rcases List.mem_append.1 hi with hi | hi
    · exact hmentions i hi
    · exact fun op hop => hold op (h.mentions i hi op hop)
  · rcases List.mem_append.1 hop with hop | hop
    · exact hexits op hop
    · exact hold op (h.exits op hop)

/-- A phi may take the place of an instruction with the same result. -/
theorem phi_head {p : Phi} (h : Scoped live params (i :: rest) exits) (hr : i.dest? = some p.dest)
    (hmentions : ∀ e ∈ p.incoming, e.2.InScope live params (destsOf (i :: rest))) :
    Scoped live params (.phi p :: rest) exits := by
  have hdests : destsOf (.phi p :: rest) = destsOf (i :: rest) := by
    rw [destsOf, destsOf, List.filterMap_cons_some hr]
    rfl
  refine ⟨hdests ▸ h.nodup, fun j hj op hop => ?_, fun op hop => hdests ▸ h.exits op hop⟩
  rw [hdests]
  rcases List.mem_cons.1 hj with rfl | hj
  · obtain ⟨e, he, rfl⟩ := List.mem_map.1 hop
    exact hmentions e he
  · exact h.mentions j (List.mem_cons_of_mem _ hj) op hop

section Paste

variable {call : Call} {s : Splice} {inner : List Instr} {innerParams : Nat}
  {innerExits pasted : List Operand}

theorem mem_destsOf_pasted {r : Reg} :
    r ∈ destsOf (.call call :: (inner.map s.paste ++ rest)) ↔
      r ∈ (destsOf inner).map s.reg ∨ r ∈ destsOf (.call call :: rest) := by
  have hperm : (Instr.call call :: (inner.map s.paste ++ rest)).Perm
      (inner.map s.paste ++ .call call :: rest) := List.perm_middle.symm
  rw [(destsOf_perm hperm).mem_iff, destsOf_append, Splice.destsOf_paste, List.mem_append]

/-- What the copy reads is there once the copy is. -/
theorem inScope_operand (h : Scoped live params (.call call :: rest) exits)
    (hargs : s.args = call.args) (hundefined : live .undefined) {o : Operand}
    (ho : o.InScope live innerParams (destsOf inner)) :
    (s.operand o).InScope live params
      (destsOf (.call call :: (inner.map s.paste ++ rest))) := by
  cases o with
  | reg r => exact mem_destsOf_pasted.2 (Or.inl (List.mem_map_of_mem ho))
  | arg index =>
      rw [Splice.operand, hargs]
      cases ha : call.args[index]? with
      | none => exact hundefined
      | some a =>
          refine (h.mentions _ List.mem_cons_self a (List.mem_cons_of_mem _
            (List.mem_of_getElem? ha))).mono fun r _ hr => ?_
          exact mem_destsOf_pasted.2 (Or.inr hr)
  | _ => exact ho

/-- A copy of other code may come in behind a call that it stands for. -/
theorem paste (h : Scoped live params (.call call :: rest) exits)
    (hinner : Scoped live innerParams inner innerExits) (hargs : s.args = call.args)
    (hbase : ∀ r ∈ destsOf (.call call :: rest), r < s.regBase) (hundefined : live .undefined)
    (hpasted : ∀ op ∈ pasted, ∃ o ∈ innerExits, s.operand o = op) :
    Scoped live params (.call call :: (inner.map s.paste ++ rest)) (pasted ++ exits) := by
  have hperm : (Instr.call call :: (inner.map s.paste ++ rest)).Perm
      (inner.map s.paste ++ .call call :: rest) := List.perm_middle.symm
  have hold : ∀ op : Operand, op.InScope live params (destsOf (.call call :: rest)) →
      op.InScope live params (destsOf (.call call :: (inner.map s.paste ++ rest))) :=
    fun op hop => hop.mono fun r _ hr => mem_destsOf_pasted.2 (Or.inr hr)
  refine ⟨?_, fun i hi op hop => ?_, fun op hop => ?_⟩
  · rw [(destsOf_perm hperm).nodup_iff, destsOf_append, Splice.destsOf_paste]
    refine List.nodup_append.2 ⟨hinner.nodup.map fun _ _ => Nat.add_left_cancel, h.nodup, ?_⟩
    intro r hr r' hr' heq
    obtain ⟨r₀, -, rfl⟩ := List.mem_map.1 hr
    exact absurd (hbase r' hr') (Nat.not_lt.2 (heq ▸ Nat.le_add_right _ _))
  · rcases List.mem_append.1 (hperm.mem_iff.1 hi) with hi | hi
    · obtain ⟨i₀, hi₀, rfl⟩ := List.mem_map.1 hi
      rw [Splice.mentions_paste] at hop
      obtain ⟨o, ho, rfl⟩ := List.mem_map.1 hop
      exact h.inScope_operand hargs hundefined (hinner.mentions i₀ hi₀ o ho)
    · exact hold op (h.mentions i hi op hop)
  · rcases List.mem_append.1 hop with hop | hop
    · obtain ⟨o, ho, rfl⟩ := hpasted op hop
      exact h.inScope_operand hargs hundefined (hinner.exits o ho)
    · exact hold op (h.exits op hop)

variable {returns : List (Label × Operand)}

theorem inScope_returns (h : Scoped live params (.call call :: rest) exits)
    (hinner : Scoped live innerParams inner innerExits) (hargs : s.args = call.args)
    (hundefined : live .undefined)
    (hreturns : ∀ e ∈ returns, e.2 = .undefined ∨ ∃ o ∈ innerExits, s.operand o = e.2) :
    ∀ e ∈ returns, e.2.InScope live params
      (destsOf (.call call :: (inner.map s.paste ++ rest))) := by
  intro e he
  rcases hreturns e he with heq | ⟨o, ho, heq⟩
  · rw [heq]
    exact hundefined
  · rw [← heq]
    exact h.inScope_operand hargs hundefined (hinner.exits o ho)

/-- A copy of other code takes the place of a call that does not read its own result, and what it
returns that of the result. -/
theorem splice (h : Scoped live params (.call call :: rest) exits)
    (hinner : Scoped live innerParams inner innerExits) (hargs : s.args = call.args)
    (hbase : ∀ r ∈ destsOf (.call call :: rest), r < s.regBase) (hundefined : live .undefined)
    (hpasted : ∀ op ∈ pasted, ∃ o ∈ innerExits, s.operand o = op)
    (hreturns : ∀ e ∈ returns, e.2 = .undefined ∨ ∃ o ∈ innerExits, s.operand o = e.2)
    (hself : ∀ d, call.dest = some d → .reg d ∉ call.args) :
    Scoped live params
      (((Inline.resultPhis call returns).map Instr.phi).map Instr.bare ++
        (inner.map s.paste ++ rest).map (Instr.mapOperands (Inline.resultRead call returns)))
      ((pasted ++ exits).map (Inline.resultRead call returns)) := by
  have hscoped := h.paste hinner hargs hbase hundefined hpasted
  have hvalue := h.inScope_returns hinner hargs hundefined hreturns
  have hid : Instr.mapOperands id = id := funext Instr.mapOperands_id
  cases hd : call.dest with
  | none =>
      have hdropped := hscoped.drop fun r hr => by simp [Instr.dest?, hd] at hr
      simpa [Inline.resultRead, Inline.resultPhis, hd, hid] using hdropped
  | some d =>
      rcases returns with _ | ⟨e, _ | ⟨e', es⟩⟩
      · have he := hscoped.subst hd (show Operand.undefined.InScope live params _ from hundefined)
          (by simp)
        simpa [Inline.resultRead, Inline.resultPhis, hd] using he
      · have he := hscoped.subst hd (hvalue e List.mem_cons_self) ?_
        · simpa [Inline.resultRead, Inline.resultPhis, hd] using he
        · -- What is returned is a register of the copy, or an argument and not the result.
          intro heq
          rcases hreturns e List.mem_cons_self with hundef | ⟨o, -, ho⟩
          · rw [hundef] at heq
            cases heq
          · obtain ⟨r, -, hr⟩ | ha := Splice.operand_eq_reg (ho.trans heq)
            · have hlt := hbase d (mem_destsOf.2 ⟨_, List.mem_cons_self, hd⟩)
              exact absurd hlt (Nat.not_lt.2 (hr ▸ Nat.le_add_right _ _))
            · exact hself d hd (hargs ▸ ha)
      · have hphi := hscoped.phi_head
          (p := ⟨d, call.ty, (e :: e' :: es).map fun e => (.entry, e.2)⟩) hd fun e he => by
          obtain ⟨e₀, he₀, rfl⟩ := List.mem_map.1 he
          exact hvalue e₀ he₀
        simpa [Inline.resultRead, Inline.resultPhis, hd, hid, Instr.bare, Instr.mapPhiLabels]
          using hphi

end Paste

end Scoped

namespace WellScoped

variable {live : Operand → Prop} {params : Nat} {code rest : List Instr} {exits : List Operand}
  {i : Instr} {r : Reg}

theorem toScoped (h : WellScoped live params code exits) : Scoped live params code exits :=
  ⟨h.nodup, h.mentions, h.exits⟩

theorem of_perm {code' : List Instr} {exits' : List Operand} (h : WellScoped live params code exits)
    (hcode : code.Perm code') (hexits : exits.Perm exits') :
    WellScoped live params code' exits' := by
  obtain ⟨rank, hrank⟩ := h.ranked
  exact (h.toScoped.of_perm hcode hexits).wellScoped
    ⟨rank, fun i hi => hrank i (hcode.mem_iff.2 hi)⟩
    fun c hc => h.resolved c (hcode.mem_iff.2 hc)

theorem mono {live' : Operand → Prop} (h : WellScoped live params code exits)
    (hlive : ∀ op, op ∈ code.flatMap Instr.mentions ∨ op ∈ exits → live op → live' op) :
    WellScoped live' params code exits :=
  (h.toScoped.mono hlive).wellScoped h.ranked h.resolved

/-- An instruction whose result nobody reads may go. -/
theorem drop (h : WellScoped live params (i :: rest) exits)
    (hunread : ∀ r, i.dest? = some r → (∀ j ∈ rest, .reg r ∉ j.mentions) ∧ .reg r ∉ exits) :
    WellScoped live params rest exits := by
  obtain ⟨rank, hrank⟩ := h.ranked
  exact (h.toScoped.drop hunread).wellScoped
    ⟨rank, fun j hj => hrank j (List.mem_cons_of_mem _ hj)⟩
    fun c hc => h.resolved c (List.mem_cons_of_mem _ hc)

/-- A result may be read as a value that ranks below it; its instruction goes. -/
theorem subst (h : WellScoped live params (i :: rest) exits) (hr : i.dest? = some r)
    {value : Operand} (hvalue : value.InScope live params (destsOf (i :: rest)))
    (hrank : ∃ rank, RankedBy rank (i :: rest) ∧ ∀ s, value = .reg s → rank s < rank r) :
    WellScoped live params (rest.map (Instr.mapOperands (Operand.replaceReg r value)))
      (exits.map (Operand.replaceReg r value)) := by
  obtain ⟨rank, hranked, hvalueRank⟩ := hrank
  have hne : value ≠ .reg r := fun heq => absurd (hvalueRank r heq) (Nat.lt_irrefl _)
  refine (h.toScoped.subst hr hvalue hne).wellScoped ⟨rank, fun j hj hphi x hx s hs => ?_⟩
    fun c hc => ?_
  · obtain ⟨j₀, hj₀, rfl⟩ := List.mem_map.1 hj
    rw [Instr.isPhi_mapOperands] at hphi
    rw [Instr.dest?_mapOperands] at hx
    rw [Instr.mentions_mapOperands (Operand.replaceReg_func r value)] at hs
    obtain ⟨op, hop, heq⟩ := List.mem_map.1 hs
    have hbelow := hranked j₀ (List.mem_cons_of_mem _ hj₀) hphi x hx
    rw [Operand.replaceReg] at heq
    split_ifs at heq with hreg
    · exact Nat.lt_trans (hvalueRank s heq) (hbelow r (hreg ▸ hop))
    · exact hbelow s (heq ▸ hop)
  · obtain ⟨j, hj, heq⟩ := List.mem_map.1 hc
    obtain ⟨c₀, rfl, hcallee, -⟩ := Instr.exists_of_mapOperands_eq_call heq
    obtain ⟨id, hid⟩ := h.resolved c₀ (List.mem_cons_of_mem _ hj)
    exact ⟨id, hcallee ▸ Callee.resolve?_mapOperands (Operand.replaceReg_func r value id) hid⟩

/-- Instructions may change one by one when results, registers and resolved calls stay. -/
theorem map {live' : Operand → Prop} {g : Instr → Instr} {k : Operand → Operand}
    (h : WellScoped live params code exits) (hdest : ∀ i, (g i).dest? = i.dest?)
    (hphi : ∀ i, (g i).isPhi = i.isPhi) (hmentions : ∀ i, (g i).mentions = i.mentions.map k)
    (hk : ∀ (op : Operand) ds, op.InScope live params ds → (k op).InScope live' params ds)
    (hreg : ∀ op r, k op = .reg r → op = .reg r)
    (hcall : ∀ i c, g i = .call c → ∃ c₀, i = .call c₀ ∧
      ∀ id, c₀.callee.resolve? = some id → ∃ id', c.callee.resolve? = some id') :
    WellScoped live' params (code.map g) (exits.map k) := by
  have hdests : destsOf (code.map g) = destsOf code := destsOf_map hdest code
  obtain ⟨rank, hrank⟩ := h.ranked
  refine ⟨hdests ▸ h.nodup, fun i hi op hop => ?_, fun op hop => ?_,
    ⟨rank, fun i hi hphi' r hr s hs => ?_⟩, fun c hc => ?_⟩
  · obtain ⟨i₀, hi₀, rfl⟩ := List.mem_map.1 hi
    rw [hmentions] at hop
    obtain ⟨op₀, hop₀, rfl⟩ := List.mem_map.1 hop
    exact hdests ▸ hk op₀ _ (h.mentions i₀ hi₀ op₀ hop₀)
  · obtain ⟨op₀, hop₀, rfl⟩ := List.mem_map.1 hop
    exact hdests ▸ hk op₀ _ (h.exits op₀ hop₀)
  · obtain ⟨i₀, hi₀, rfl⟩ := List.mem_map.1 hi
    rw [hmentions] at hs
    obtain ⟨op, hop, heq⟩ := List.mem_map.1 hs
    exact hrank i₀ hi₀ (hphi i₀ ▸ hphi') r (hdest i₀ ▸ hr) s (hreg op s heq ▸ hop)
  · obtain ⟨i₀, hi₀, heq⟩ := List.mem_map.1 hc
    obtain ⟨c₀, rfl, hresolve⟩ := hcall i₀ c heq
    obtain ⟨id, hid⟩ := h.resolved c₀ hi₀
    exact hresolve id hid

theorem exists_bound (rank : Reg → Nat) (rs : List Reg) : ∃ bound, ∀ r ∈ rs, rank r < bound := by
  refine ⟨rs.toFinset.sup rank + 1, fun r hr => Nat.lt_succ_of_le ?_⟩
  exact Finset.le_sup (f := rank) (List.mem_toFinset.2 hr)

/-- Code with fresh results may come in; its instructions, phis apart, read older registers than
they define. -/
theorem append (h : WellScoped live params code exits) {base : Reg} {new : List Instr}
    {newExits : List Operand} (hbase : ∀ r ∈ destsOf code, r < base) (hnodup : (destsOf new).Nodup)
    (hfresh : ∀ r ∈ destsOf new, base ≤ r)
    (hmentions : ∀ i ∈ new, ∀ op ∈ i.mentions, op.InScope live params (destsOf (new ++ code)))
    (hexits : ∀ op ∈ newExits, op.InScope live params (destsOf (new ++ code)))
    (holder : ∀ i ∈ new, i.isPhi = false → ∀ r, i.dest? = some r →
      ∀ s, .reg s ∈ i.mentions → s < r)
    (hresolved : ∀ c, .call c ∈ new → ∃ id, c.callee.resolve? = some id) :
    WellScoped live params (new ++ code) (newExits ++ exits) := by
  obtain ⟨rank, hrank⟩ := h.ranked
  obtain ⟨bound, hbound⟩ := exists_bound rank (destsOf code)
  refine (h.toScoped.append hbase hnodup hfresh hmentions hexits).wellScoped
    ⟨fun x => if x < base then rank x else bound + x, fun i hi hphi r hr s hs => ?_⟩ fun c hc => ?_
  · rcases List.mem_append.1 hi with hi | hi
    · have hge := hfresh r (mem_destsOf.2 ⟨i, hi, hr⟩)
      have hlt := holder i hi hphi r hr s hs
      have hmem : s ∈ destsOf new ++ destsOf code := by
        simpa [Operand.InScope] using hmentions i hi _ hs
      simp only [Nat.not_lt.2 hge, if_false]
      split_ifs with hs'
      · rcases List.mem_append.1 hmem with hnew | hcode
        · exact absurd hs' (Nat.not_lt.2 (hfresh s hnew))
        · exact Nat.lt_of_lt_of_le (hbound s hcode) (Nat.le_add_right _ _)
      · exact Nat.add_lt_add_left hlt _
    · have hlt : r < base := hbase r (mem_destsOf.2 ⟨i, hi, hr⟩)
      have hs' : s < base := hbase s (h.mentions i hi _ hs)
      simp only [hlt, hs', if_true]
      exact hrank i hi hphi r hr s hs
  · rcases List.mem_append.1 hc with hc | hc
    · exact hresolved c hc
    · exact h.resolved c hc

/-- A phi may take the place of an instruction with the same result. -/
theorem phi_head {p : Phi} (h : WellScoped live params (i :: rest) exits)
    (hr : i.dest? = some p.dest)
    (hmentions : ∀ e ∈ p.incoming, e.2.InScope live params (destsOf (i :: rest))) :
    WellScoped live params (.phi p :: rest) exits := by
  obtain ⟨rank, hrank⟩ := h.ranked
  refine (h.toScoped.phi_head hr hmentions).wellScoped ⟨rank, fun j hj hphi => ?_⟩ fun c hc => ?_
  · rcases List.mem_cons.1 hj with rfl | hj
    · cases hphi
    · exact hrank j (List.mem_cons_of_mem _ hj) hphi
  · rcases List.mem_cons.1 hc with heq | hc
    · cases heq
    · exact h.resolved c (List.mem_cons_of_mem _ hc)

section Paste

variable {call : Call} {s : Splice} {inner : List Instr} {innerParams : Nat}
  {innerExits pasted : List Operand}

/-- There is room for the ranks of a copy between the arguments of a call and its result. -/
theorem exists_rank_paste (h : WellScoped live params (.call call :: rest) exits)
    (hinner : WellScoped live innerParams inner innerExits) (hargs : s.args = call.args)
    (hbase : ∀ r ∈ destsOf (.call call :: rest), r < s.regBase) :
    ∃ rank, RankedBy rank (.call call :: (inner.map s.paste ++ rest)) ∧
      ∀ d, call.dest = some d → ∀ r ∈ destsOf inner, rank (s.regBase + r) < rank d := by
  obtain ⟨outer, houter⟩ := h.ranked
  obtain ⟨nested, hnested⟩ := hinner.ranked
  obtain ⟨room, hroom⟩ := exists_bound (fun r => nested r + 1) (destsOf inner)
  have hmem : ∀ a, .reg a ∈ call.args → a ∈ destsOf (.call call :: rest) := fun a ha =>
    h.mentions _ List.mem_cons_self (.reg a) (List.mem_cons_of_mem _ ha)
  obtain ⟨site, hsite, hresult⟩ : ∃ site, (∀ a, .reg a ∈ call.args → outer a < site) ∧
      ∀ d, call.dest = some d → outer d = site := by
    cases hd : call.dest with
    | none =>
        obtain ⟨bound, hbound⟩ := exists_bound outer (destsOf (.call call :: rest))
        exact ⟨bound, fun a ha => hbound a (hmem a ha), by simp⟩
    | some d =>
        refine ⟨outer d, fun a ha => ?_, fun d' hd' => by rw [Option.some.inj hd']⟩
        exact houter _ List.mem_cons_self rfl d hd a (List.mem_cons_of_mem _ ha)
  -- The outer ranks are spread by `room`, and the copy goes into the gap below `site + 1`.
  let rank : Reg → Nat := fun x =>
    if x < s.regBase then (room + 1) * (outer x + 1)
    else (room + 1) * site + nested (x - s.regBase) + 1
  have hrankOuter : ∀ x ∈ destsOf (.call call :: rest), rank x = (room + 1) * (outer x + 1) :=
    fun x hx => if_pos (hbase x hx)
  have hrankInner : ∀ r, rank (s.regBase + r) = (room + 1) * site + nested r + 1 := fun r => by
    simp [rank]
  have houterRanked : ∀ i ∈ Instr.call call :: rest, i.isPhi = false → ∀ x, i.dest? = some x →
      ∀ y, .reg y ∈ i.mentions → rank y < rank x := by
    intro i hi hphi x hx y hy
    rw [hrankOuter x (mem_destsOf.2 ⟨i, hi, hx⟩), hrankOuter y (h.mentions i hi _ hy)]
    exact Nat.mul_lt_mul_of_pos_left (Nat.succ_lt_succ (houter i hi hphi x hx y hy))
      (Nat.succ_pos room)
  refine ⟨rank, fun i hi hphi x hx y hy => ?_, fun d hd r hr => ?_⟩
  · have hi := (List.perm_middle (a := Instr.call call)).symm.mem_iff.1 hi
    rcases List.mem_append.1 hi with hi | hi
    · obtain ⟨i₀, hi₀, rfl⟩ := List.mem_map.1 hi
      have hphi₀ : i₀.isPhi = false := by simpa [Splice.paste] using hphi
      rw [Splice.dest?_paste] at hx
      obtain ⟨x₀, hx₀, rfl⟩ := Option.map_eq_some_iff.1 hx
      rw [Splice.mentions_paste] at hy
      obtain ⟨o, ho, heq⟩ := List.mem_map.1 hy
      rw [Splice.reg, hrankInner]
      obtain ⟨r, rfl, rfl⟩ | ha := Splice.operand_eq_reg heq
      · rw [hrankInner]
        have hlt := hnested i₀ hi₀ hphi₀ x₀ hx₀ r ho
        omega
      · rw [hargs] at ha
        rw [hrankOuter y (hmem y ha)]
        have hle : (room + 1) * (outer y + 1) ≤ (room + 1) * site :=
          Nat.mul_le_mul_left _ (hsite y ha)
        omega
    · exact houterRanked i hi hphi x hx y hy
  · rw [hrankInner, hrankOuter d (mem_destsOf.2 ⟨_, List.mem_cons_self, hd⟩), hresult d hd]
    have hlt := hroom r hr
    have heq : (room + 1) * (site + 1) = (room + 1) * site + (room + 1) := Nat.mul_succ _ _
    omega

/-- A copy of other code may come in behind a call that it stands for.  Its results rank between
the arguments of the call and its result. -/
theorem paste (h : WellScoped live params (.call call :: rest) exits)
    (hinner : WellScoped live innerParams inner innerExits) (hargs : s.args = call.args)
    (hbase : ∀ r ∈ destsOf (.call call :: rest), r < s.regBase) (hundefined : live .undefined)
    (hpasted : ∀ op ∈ pasted, ∃ o ∈ innerExits, s.operand o = op) :
    WellScoped live params (.call call :: (inner.map s.paste ++ rest)) (pasted ++ exits) ∧
      ∃ rank, RankedBy rank (.call call :: (inner.map s.paste ++ rest)) ∧
        ∀ d, call.dest = some d → ∀ r ∈ destsOf inner, rank (s.regBase + r) < rank d := by
  obtain ⟨rank, hrank, hbetween⟩ := h.exists_rank_paste hinner hargs hbase
  refine ⟨(h.toScoped.paste hinner.toScoped hargs hbase hundefined hpasted).wellScoped
    ⟨rank, hrank⟩ fun c hc => ?_, rank, hrank, hbetween⟩
  rcases List.mem_append.1 (List.perm_middle.symm.mem_iff.1 hc) with hc | hc
  · obtain ⟨i₀, hi₀, heq⟩ := List.mem_map.1 hc
    obtain ⟨c₁, hc₁, hcallee, -⟩ := Instr.exists_of_mapOperands_eq_call heq
    obtain ⟨c₀, rfl, hcallee₀⟩ : ∃ c₀, i₀ = .call c₀ ∧ c₁.callee = c₀.callee := by
      cases i₀ with
      | call c₀ =>
          cases hc₁
          exact ⟨c₀, rfl, rfl⟩
      | _ => cases hc₁
    obtain ⟨id, hid⟩ := hinner.resolved c₀ hi₀
    exact ⟨id, by
      rw [hcallee, hcallee₀]
      exact Callee.resolve?_mapOperands rfl hid⟩
  · exact h.resolved c hc

/-- A copy of other code takes the place of a call, and what it returns that of the result. -/
theorem splice (h : WellScoped live params (.call call :: rest) exits)
    (hinner : WellScoped live innerParams inner innerExits) (hargs : s.args = call.args)
    (hbase : ∀ r ∈ destsOf (.call call :: rest), r < s.regBase) (hundefined : live .undefined)
    (hpasted : ∀ op ∈ pasted, ∃ o ∈ innerExits, s.operand o = op)
    {returns : List (Label × Operand)}
    (hreturns : ∀ e ∈ returns, e.2 = .undefined ∨ ∃ o ∈ innerExits, s.operand o = e.2) :
    WellScoped live params
      (((Inline.resultPhis call returns).map Instr.phi).map Instr.bare ++
        (inner.map s.paste ++ rest).map (Instr.mapOperands (Inline.resultRead call returns)))
      ((pasted ++ exits).map (Inline.resultRead call returns)) := by
  obtain ⟨hscoped, rank, hrank, hbetween⟩ := h.paste hinner hargs hbase hundefined hpasted
  have hvalue := h.toScoped.inScope_returns hinner.toScoped hargs hundefined hreturns
  have hid : Instr.mapOperands id = id := funext Instr.mapOperands_id
  cases hd : call.dest with
  | none =>
      have hdropped := hscoped.drop fun r hr => by simp [Instr.dest?, hd] at hr
      simpa [Inline.resultRead, Inline.resultPhis, hd, hid] using hdropped
  | some d =>
      have hsubst : ∀ value : Operand, value.InScope live params
          (destsOf (.call call :: (inner.map s.paste ++ rest))) →
          (∀ y, value = .reg y → rank y < rank d) → WellScoped live params
            ((inner.map s.paste ++ rest).map (Instr.mapOperands (.replaceReg d value)))
            ((pasted ++ exits).map (.replaceReg d value)) :=
        fun value hv hlt => hscoped.subst hd hv ⟨rank, hrank, hlt⟩
      rcases returns with _ | ⟨e, _ | ⟨e', es⟩⟩
      · simpa [Inline.resultRead, Inline.resultPhis, hd] using
          hsubst .undefined hundefined fun y hy => by cases hy
      · have he := hsubst e.2 (hvalue e List.mem_cons_self) ?_
        · simpa [Inline.resultRead, Inline.resultPhis, hd] using he
        · intro y hy
          rcases hreturns e List.mem_cons_self with heq | ⟨o, ho, heq⟩
          · rw [heq] at hy
            cases hy
          · obtain ⟨r, rfl, rfl⟩ | ha := Splice.operand_eq_reg (heq.trans hy)
            · exact hbetween d hd r (hinner.exits _ ho)
            · rw [hargs] at ha
              exact hrank _ List.mem_cons_self rfl d hd y (List.mem_cons_of_mem _ ha)
      · have hphi := hscoped.phi_head
          (p := ⟨d, call.ty, (e :: e' :: es).map fun e => (.entry, e.2)⟩) hd fun e he => by
          obtain ⟨e₀, he₀, rfl⟩ := List.mem_map.1 he
          exact hvalue e₀ he₀
        simpa [Inline.resultRead, Inline.resultPhis, hd, hid, Instr.bare, Instr.mapPhiLabels]
          using hphi

end Paste

end WellScoped

end KernelIR
