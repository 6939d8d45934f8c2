import KernelIR.Proofs.Naming.Steps
import KernelIR.Proofs.WellFormed.Casts
import Mathlib

/-!
# Calls that lost their casts

What a body becomes when the casts of some callees in it are dropped.  All that is read stays
read and keeps the instructions that define it, so that operands keep their types, and one edit may
follow on another.
-/

namespace KernelIR

/-- The instructions with the result `r`. -/
def definersOf (code : List Instr) (r : Reg) : List Instr := code.filter fun i => i.dest? == some r

section DefinersOf

variable {code : List Instr} {i : Instr} {r : Reg}

theorem definersOf_append (code code' : List Instr) (r : Reg) :
    definersOf (code ++ code') r = definersOf code r ++ definersOf code' r :=
  List.filter_append ..

theorem definersOf_cons (i : Instr) (code : List Instr) (r : Reg) :
    definersOf (i :: code) r = definersOf [i] r ++ definersOf code r :=
  definersOf_append [i] code r

theorem definersOf_eq_nil_iff : definersOf code r = [] ↔ r ∉ destsOf code := by
  simp [definersOf, mem_destsOf]

theorem definersOf_self (hd : i.dest? = some r) : definersOf [i] r = [i] := by
  simp [definersOf, hd]

theorem definersOf_eq_singleton (h : (destsOf code).Nodup) (hi : i ∈ code)
    (hd : i.dest? = some r) : definersOf code r = [i] := by
  obtain ⟨before, behind, rfl⟩ := List.append_of_mem hi
  have hsplit : destsOf (before ++ i :: behind) = destsOf before ++ r :: destsOf behind := by
    simp [destsOf, hd]
  rw [hsplit, List.nodup_middle, List.nodup_cons, List.mem_append, not_or] at h
  rw [definersOf_append, definersOf_cons, definersOf_eq_nil_iff.2 h.1.1, definersOf_self hd,
    definersOf_eq_nil_iff.2 h.1.2]
  rfl

end DefinersOf

namespace Func

/-- The instructions of a body in order. -/
def flat (f : Func) : List Instr := f.body.entries.flatMap fun e => e.2.instrs

def definers (f : Func) (r : Reg) : List Instr := definersOf f.flat r

theorem map_instrs (f : Func) : f.instrs.map (·.2) = f.flat := by
  simp only [instrs, flat, List.map_flatMap]
  refine List.flatMap_congr fun e _ => ?_
  conv_rhs => rw [← List.zipIdx_map_fst 0 e.2.instrs]
  simp [Function.comp_def]

theorem valueTy?_reg (f : Func) (r : Reg) :
    f.valueTy? (.reg r) = (f.definers r).head?.bind Instr.destTy? := by
  rw [definers, definersOf, List.head?_filter, ← map_instrs, List.find?_map, Option.bind_map]
  rfl

theorem mem_reads_of_mem_args {f : Func} {call : Call} {r : Reg} (hcall : .call call ∈ f.flat)
    (hr : .reg r ∈ call.args) : r ∈ f.reads := by
  obtain ⟨e, he, hi⟩ := List.mem_flatMap.1 hcall
  refine mem_reads_iff.2 (List.mem_flatMap.2 ⟨e.2, List.mem_map_of_mem he, ?_⟩)
  exact List.mem_append_left _ (List.mem_flatMap.2 ⟨_, hi, List.mem_cons_of_mem _ hr⟩)

theorem mem_flat_of_find? {f : Func} {l : Label} {b : Block} (hb : f.body.find? l = some b) :
    b.instrs ⊆ f.flat :=
  fun _ hi => List.mem_flatMap.2 ⟨(l, b), OrderedMap.mem_entries_iff.2 hb, hi⟩

theorem eq_take_append_cons {is : List Instr} {n : Nat} {i : Instr} (hi : is[n]? = some i) :
    is = is.take n ++ i :: is.drop (n + 1) := by
  obtain ⟨hn, rfl⟩ := List.getElem?_eq_some_iff.1 hi
  rw [← List.drop_eq_getElem_cons hn, List.take_append_drop]

/-- Instructions are put in the place of another, and all others stay in order. -/
theorem flat_replaceInstr {f : Func} {pos : Position} {b : Block} {i : Instr} (new : List Instr)
    (hb : f.body.find? pos.label = some b) (hi : b.instrs[pos.index]? = some i) :
    ∃ before behind, f.flat = before ++ i :: behind ∧
      (f.replaceInstr pos new).flat = before ++ new ++ behind := by
  obtain ⟨pre, post, hsplit⟩ := List.append_of_mem (OrderedMap.mem_entries_iff.2 hb)
  have hothers : ∀ e ∈ pre ++ post, e.1 ≠ pos.label := by
    have hkeys := OrderedMap.nodup_keys f.body
    rw [OrderedMap.keys, hsplit, List.map_append, List.map_cons, List.nodup_middle,
      List.nodup_cons, ← List.map_append] at hkeys
    exact fun e he heq => hkeys.1 (List.mem_map.2 ⟨e, he, heq⟩)
  have hsame : ∀ es : List (Label × Block), (∀ e ∈ es, e.1 ≠ pos.label) →
      (es.map fun e => (e.1, if e.1 = pos.label then
        { e.2 with instrs := e.2.instrs.take pos.index ++ new ++ e.2.instrs.drop (pos.index + 1) }
        else e.2)) = es := fun es hes =>
    (List.map_congr_left fun e he => by rw [if_neg (hes e he)]).trans (List.map_id' es)
  refine ⟨pre.flatMap (fun e => e.2.instrs) ++ b.instrs.take pos.index,
    b.instrs.drop (pos.index + 1) ++ post.flatMap (fun e => e.2.instrs), ?_, ?_⟩
  · conv_lhs => rw [flat, hsplit, List.flatMap_append, List.flatMap_cons,
      eq_take_append_cons hi]
    simp only [List.append_assoc, List.cons_append]
  · rw [flat, replaceInstr, OrderedMap.entries_modify, hsplit, List.map_append, List.map_cons,
      hsame pre fun e he => hothers e (List.mem_append_left _ he),
      hsame post fun e he => hothers e (List.mem_append_right _ he), List.flatMap_append,
      List.flatMap_cons, if_pos rfl]
    simp only [List.append_assoc]

/-- What `f` reads is read in `g` as well, where the same instructions define it. -/
structure Carries (f g : Func) : Prop where
  params : g.params = f.params
  reads : f.reads ⊆ g.reads
  definers : ∀ r ∈ f.reads, g.definers r = f.definers r

variable {f g h : Func}

theorem Carries.refl (f : Func) : f.Carries f := ⟨rfl, List.Subset.refl _, fun _ _ => rfl⟩

theorem Carries.trans (h₁ : f.Carries g) (h₂ : g.Carries h) : f.Carries h :=
  ⟨h₂.params.trans h₁.params, List.Subset.trans h₁.reads h₂.reads,
    fun r hr => (h₂.definers r (h₁.reads hr)).trans (h₁.definers r hr)⟩

/-- Operands keep their types. -/
theorem Carries.valueTy?_eq (h : f.Carries g) (m : Module) {op : Operand}
    (hop : ∀ r, op = .reg r → r ∈ f.reads) : m.valueTy? g op = m.valueTy? f op := by
  cases op with
  | reg r => simp only [Module.valueTy?, valueTy?_reg, h.definers r (hop r rfl)]
  | arg index => simp only [Module.valueTy?, valueTy?, h.params]
  | _ => rfl

end Func

namespace Module

/-- The cast of the callee of `call` can be dropped: nobody reads the result, and the operands are
as many as the parameters and like these pointers. -/
structure Droppable (m : Module) (f : Func) (call : Call) (id : FuncId) (retTy : Ty)
    (tys : List Ty) : Prop where
  callee : call.callee = .cast id
  live : (m.funcs.get? id).map Func.prototype = some (retTy, tys)
  unread : ∀ r, call.dest = some r → r ∉ f.reads
  arity : tys.length = call.args.length
  params : ∀ ty ∈ tys, ty.isPointer = true
  args : ∀ op ∈ call.args, ∃ ty, m.valueTy? f op = some ty ∧ ty.isPointer = true

theorem droppableCast?_eq_some_iff {m : Module} {f : Func} {call : Call} {id : FuncId} :
    m.droppableCast? f call = some id ↔ ∃ retTy tys, m.Droppable f call id retTy tys := by
  rw [droppableCast?]
  constructor
  · intro h
    split at h
    · next hcallee =>
        split at h
        · cases h
        · next target htarget =>
            split_ifs at h with hdrop
            cases h
            simp only [Bool.and_eq_true, Option.all_eq_true, decide_eq_true_eq, beq_iff_eq,
              List.all_eq_true, Option.any_eq_true] at hdrop
            obtain ⟨⟨⟨hunread, harity⟩, hparams⟩, hargs⟩ := hdrop
            refine ⟨target.retTy, target.params.map (·.ty), hcallee, by rw [htarget]; rfl,
              fun r hr => List.count_eq_zero.1 (hunread r hr), by rw [List.length_map, harity],
              ?_, hargs⟩
            rw [List.forall_mem_map]
            exact hparams
    · cases h
  · rintro ⟨retTy, tys, hcallee, hlive, hunread, harity, hparams, hargs⟩
    obtain ⟨target, htarget, heq⟩ := Option.map_eq_some_iff.1 hlive
    cases heq
    rw [List.length_map] at harity
    rw [List.forall_mem_map] at hparams
    rw [hcallee]
    simp only [htarget]
    refine if_pos ?_
    simp only [Bool.and_eq_true, Option.all_eq_true, decide_eq_true_eq, beq_iff_eq,
      List.all_eq_true, Option.any_eq_true]
    exact ⟨⟨⟨fun r hr => List.count_eq_zero.2 (hunread r hr), harity⟩, hparams⟩, hargs⟩

/-- `passed` goes to parameters of types `tys` in the place of `args`, with `casts` in front of the
call.  An operand of the type of its parameter is passed as it is; any other is cast into a
register that `f` does not read and that nothing else in `g` defines. -/
inductive Passes (m : Module) (f g : Func) :
    List Operand → List Ty → List Instr → List Operand → Prop
  | nil : Passes m f g [] [] [] []
  | keep {arg : Operand} {ty : Ty} {args : List Operand} {tys : List Ty} {casts : List Instr}
      {passed : List Operand} (hty : m.valueTy? f arg = some ty)
      (h : Passes m f g args tys casts passed) :
      Passes m f g (arg :: args) (ty :: tys) casts (arg :: passed)
  | cast {arg : Operand} {ty : Ty} {r : Reg} {args : List Operand} {tys : List Ty}
      {casts : List Instr} {passed : List Operand} (hty : m.valueTy? f arg ≠ some ty)
      (hunread : r ∉ f.reads) (hdef : g.definers r = [.cast ⟨r, .addrSpaceCast, arg, ty⟩])
      (h : Passes m f g args tys casts passed) :
      Passes m f g (arg :: args) (ty :: tys) (.cast ⟨r, .addrSpaceCast, arg, ty⟩ :: casts)
        (.reg r :: passed)

/-- Some calls through casts became direct calls, with the casts of their operands in front; all
else is as it was, in the same order. -/
inductive Uncasts (m : Module) (f g : Func) : List Instr → List Instr → Prop
  | nil : Uncasts m f g [] []
  | keep (i : Instr) {is js : List Instr} (h : Uncasts m f g is js) :
      Uncasts m f g (i :: is) (i :: js)
  | drop {call : Call} {id : FuncId} {retTy : Ty} {tys : List Ty} {casts is js : List Instr}
      {passed : List Operand} (hcall : m.Droppable f call id retTy tys)
      (hpassed : m.Passes f g call.args tys casts passed)
      (htyped : passed.map (m.valueTy? g) = tys.map some) (h : Uncasts m f g is js) :
      Uncasts m f g (.call call :: is)
        (casts ++ .call ⟨none, retTy, .direct id, passed, call.conv⟩ :: js)

/-- `g` is `f` with the casts of some callees dropped. -/
structure Uncast (m : Module) (f g : Func) : Prop where
  header : g = { f with body := g.body }
  blocks : ∀ l, Option.Rel
    (fun b b' => b'.terminator = b.terminator ∧ m.Uncasts f g b.instrs b'.instrs)
    (f.body.find? l) (g.body.find? l)
  carries : f.Carries g
  checked : f.checkSSA = .ok () → g.checkSSA = .ok ()

variable {m : Module} {f f₁ g : Func} {call : Call} {id : FuncId} {retTy : Ty} {tys : List Ty}
  {args passed : List Operand} {casts is js ks : List Instr}

theorem Droppable.of_carries (h : m.Droppable f₁ call id retTy tys) (hc : f.Carries f₁)
    (hcall : .call call ∈ f.flat) : m.Droppable f call id retTy tys where
  callee := h.callee
  live := h.live
  unread r hr hread := h.unread r hr (hc.reads hread)
  arity := h.arity
  params := h.params
  args op hop := by
    obtain ⟨ty, hty, hptr⟩ := h.args op hop
    refine ⟨ty, ?_, hptr⟩
    rw [← hc.valueTy?_eq m fun r hr => Func.mem_reads_of_mem_args hcall (hr ▸ hop)]
    exact hty

theorem Passes.of_carries (h : m.Passes f₁ g args tys casts passed) (hc : f.Carries f₁)
    (hargs : ∀ r, .reg r ∈ args → r ∈ f.reads) : m.Passes f g args tys casts passed := by
  induction h with
  | nil => exact .nil
  | keep hty _ ih =>
      rw [hc.valueTy?_eq m fun r hr => hargs r (hr ▸ List.mem_cons_self)] at hty
      exact .keep hty (ih fun r hr => hargs r (List.mem_cons_of_mem _ hr))
  | cast hty hunread hdef _ ih =>
      rw [hc.valueTy?_eq m fun r hr => hargs r (hr ▸ List.mem_cons_self)] at hty
      exact .cast hty (fun hr => hunread (hc.reads hr)) hdef
        (ih fun r hr => hargs r (List.mem_cons_of_mem _ hr))

theorem Passes.carries (h : m.Passes f f₁ args tys casts passed) (hc : f₁.Carries g)
    (hpassed : ∀ r, .reg r ∈ passed → r ∈ f₁.reads) : m.Passes f g args tys casts passed := by
  induction h with
  | nil => exact .nil
  | keep hty _ ih => exact .keep hty (ih fun r hr => hpassed r (List.mem_cons_of_mem _ hr))
  | cast hty hunread hdef _ ih =>
      rw [← hc.definers _ (hpassed _ List.mem_cons_self)] at hdef
      exact .cast hty hunread hdef (ih fun r hr => hpassed r (List.mem_cons_of_mem _ hr))

/-- What is passed has the types of the parameters. -/
theorem Passes.map_valueTy? (h : m.Passes f g args tys casts passed) (hc : f.Carries g)
    (hargs : ∀ r, .reg r ∈ args → r ∈ f.reads) : passed.map (m.valueTy? g) = tys.map some := by
  induction h with
  | nil => rfl
  | keep hty _ ih =>
      rw [List.map_cons, List.map_cons, ih fun r hr => hargs r (List.mem_cons_of_mem _ hr),
        hc.valueTy?_eq m fun r hr => hargs r (hr ▸ List.mem_cons_self), hty]
  | @cast arg ty r _ _ _ _ _ _ hdef _ ih =>
      have hr : m.valueTy? g (.reg r) = some ty := by
        rw [valueTy?, Func.valueTy?_reg, hdef]
        · rfl
        · exact nofun
      rw [List.map_cons, List.map_cons, ih fun r hr => hargs r (List.mem_cons_of_mem _ hr), hr]

/-- The casts are casts, so that none of them calls. -/
theorem Passes.exists_cast (h : m.Passes f g args tys casts passed) {i : Instr} (hi : i ∈ casts) :
    ∃ c, i = .cast c := by
  induction h with
  | nil => exact nomatch hi
  | keep _ _ ih => exact ih hi
  | cast _ _ _ _ ih =>
      rcases List.mem_cons.1 hi with rfl | hi
      · exact ⟨_, rfl⟩
      · exact ih hi

theorem Uncasts.refl (m : Module) (f g : Func) (is : List Instr) : m.Uncasts f g is is := by
  induction is with
  | nil => exact .nil
  | cons i is ih => exact .keep i ih

theorem Uncasts.append_left (h : m.Uncasts f g is js) (before : List Instr) :
    m.Uncasts f g (before ++ is) (before ++ js) := by
  induction before with
  | nil => exact h
  | cons i before ih => exact .keep i ih

/-- What is no call through a cast stays. -/
theorem Uncasts.of_append {before : List Instr} (h : m.Uncasts f g (before ++ is) ks)
    (hbefore : ∀ i ∈ before, ∀ c id, i = .call c → c.callee ≠ .cast id) :
    ∃ js, ks = before ++ js ∧ m.Uncasts f g is js := by
  induction before generalizing ks with
  | nil => exact ⟨ks, rfl, h⟩
  | cons i before ih =>
      cases h with
      | keep _ h =>
          obtain ⟨js, rfl, hjs⟩ := ih h fun i hi => hbefore i (List.mem_cons_of_mem _ hi)
          exact ⟨js, rfl, hjs⟩
      | drop hcall => exact absurd hcall.callee (hbefore _ List.mem_cons_self _ _ rfl)

/-- Two edits in a row are one: the second leaves what the first put in. -/
theorem Uncasts.trans (h : m.Uncasts f f₁ is js) (h₁ : m.Uncasts f₁ g js ks) (hc : f.Carries f₁)
    (hc₁ : f₁.Carries g) (his : is ⊆ f.flat) (hjs : js ⊆ f₁.flat) : m.Uncasts f g is ks := by
  induction h generalizing ks with
  | nil =>
      cases h₁
      exact .nil
  | keep i _ ih =>
      obtain ⟨hi, hrest⟩ := List.cons_subset.1 his
      obtain ⟨-, hrest₁⟩ := List.cons_subset.1 hjs
      cases h₁ with
      | keep _ h₁ => exact .keep i (ih h₁ hrest hrest₁)
      | drop hcall hpassed htyped h₁ =>
          exact .drop (hcall.of_carries hc hi)
            (hpassed.of_carries hc fun r hr => Func.mem_reads_of_mem_args hi hr) htyped
            (ih h₁ hrest hrest₁)
  | @drop call id retTy tys casts is js passed hcall hpassed htyped _ ih =>
      obtain ⟨hi, hrest⟩ := List.cons_subset.1 his
      have hdirect := hjs (List.mem_append_right _ List.mem_cons_self)
      rw [List.append_cons] at h₁ hjs
      -- what the first edit put in holds no call through a cast, so that the second leaves it
      obtain ⟨ks', rfl, hks⟩ := h₁.of_append fun i hi' c id' hc' hcast => by
        rcases List.mem_append.1 hi' with hi' | hi'
        · obtain ⟨_, rfl⟩ := hpassed.exists_cast hi'
          cases hc'
        · obtain rfl := List.mem_singleton.1 hi'
          cases hc'
          cases hcast
      rw [← List.append_cons]
      have hpassed := hpassed.carries hc₁ fun r hr => Func.mem_reads_of_mem_args hdirect hr
      exact .drop hcall hpassed
        (hpassed.map_valueTy? (hc.trans hc₁) fun r hr => Func.mem_reads_of_mem_args hi hr)
        (ih hks hrest fun i hi => hjs (List.mem_append_right _ hi))

namespace Uncast

theorem refl (m : Module) (f : Func) : m.Uncast f f where
  header := rfl
  blocks _ := rel_self (fun b => ⟨rfl, .refl m f f b.instrs⟩) _
  carries := .refl f
  checked h := h

theorem trans (h : m.Uncast f f₁) (h₁ : m.Uncast f₁ g) : m.Uncast f g where
  header := h₁.header.trans (by rw [h.header])
  carries := h.carries.trans h₁.carries
  checked hf := h₁.checked (h.checked hf)
  blocks l := rel_comp (h.blocks l) (h₁.blocks l) fun _ _ _ hb hb₁ hr hr₁ =>
    ⟨hr₁.1.trans hr.1, hr.2.trans hr₁.2 h.carries h₁.carries (Func.mem_flat_of_find? hb)
      (Func.mem_flat_of_find? hb₁)⟩

end Uncast

section Prototypes

/-! Which casts can be dropped is a matter of prototypes and of the types of globals. -/

variable {m' : Module}
  (hfuncs : ∀ id, (m'.funcs.get? id).map Func.prototype = (m.funcs.get? id).map Func.prototype)
  (hglobals : m'.globals = m.globals)

include hglobals in
theorem valueTy?_congr (f : Func) : m'.valueTy? f = m.valueTy? f := by
  funext op
  cases op <;> simp only [valueTy?, hglobals]

include hglobals in
theorem Passes.congr (h : m'.Passes f g args tys casts passed) :
    m.Passes f g args tys casts passed := by
  induction h with
  | nil => exact .nil
  | keep hty _ ih => exact .keep (valueTy?_congr hglobals f ▸ hty) ih
  | cast hty hunread hdef _ ih => exact .cast (valueTy?_congr hglobals f ▸ hty) hunread hdef ih

include hfuncs hglobals

theorem Droppable.congr (h : m'.Droppable f call id retTy tys) : m.Droppable f call id retTy tys :=
  { h with
    live := hfuncs id ▸ h.live
    args := valueTy?_congr hglobals f ▸ h.args }

theorem Uncasts.congr (h : m'.Uncasts f g is js) : m.Uncasts f g is js := by
  induction h with
  | nil => exact .nil
  | keep i _ ih => exact .keep i ih
  | drop hcall hpassed htyped _ ih =>
      exact .drop (hcall.congr hfuncs hglobals) (hpassed.congr hglobals)
        (valueTy?_congr hglobals g ▸ htyped) ih

theorem Uncast.congr (h : m'.Uncast f g) : m.Uncast f g :=
  { h with
    blocks := fun l => rel_comp (h.blocks l) (rel_self Eq.refl _) fun _ _ _ _ _ hr heq =>
      heq ▸ ⟨hr.1, hr.2.congr hfuncs hglobals⟩ }

end Prototypes

end Module

end KernelIR
