import KernelIR.Proofs.History
import KernelIR.Proofs.Naming.Merged
import Mathlib

/-!
# Replaced functions

The count of references, the list of call sites and the redirection of references visit the same
places.  So a replacement that passes the checks goes through, and the references of the two
functions add up, but for those in the body that goes away.
-/

namespace KernelIR

open KernelIR.Module (sendTo)

variable {old new : FuncId}

/-- An instruction with its operands and its target forgotten. -/
def Instr.shape (i : Instr) : Instr :=
  (i.mapFuncs fun _ => default).mapOperands fun _ => .undefined

namespace Instr

theorem shape_mapFuncs (k : FuncId → FuncId) (i : Instr) : (i.mapFuncs k).shape = i.shape := by
  cases i with
  | call c =>
      rcases c with ⟨dest, ty, callee, args, conv⟩
      cases callee <;> simp [shape, mapFuncs, mapOperands, Callee.mapTarget, Callee.mapOperands]
  | _ => simp [shape, mapFuncs, mapOperands]

/-- Nothing of an instruction is left out by its shape and what it mentions. -/
theorem eq_of_shape_eq {i j : Instr} (hshape : i.shape = j.shape)
    (hmentions : i.mentions = j.mentions) : i = j := by
  cases i with
  | call c =>
      cases j with
      | call c' =>
          rcases c with ⟨dest, ty, callee, args, conv⟩
          rcases c' with ⟨dest', ty', callee', args', conv'⟩
          cases callee <;> cases callee' <;>
            simp_all [shape, mapFuncs, mapOperands, mentions, Callee.mapTarget,
              Callee.mapOperands, Callee.target]
      | _ => cases hshape
  | phi p =>
      cases j with
      | phi p' =>
          rcases p with ⟨dest, ty, incoming⟩
          rcases p' with ⟨dest', ty', incoming'⟩
          have hvalues : incoming.map (·.2) = incoming'.map (·.2) := hmentions
          simp only [shape, mapFuncs, mapOperands, List.map_map, phi.injEq, Phi.mk.injEq] at hshape
          obtain ⟨rfl, rfl, hincoming⟩ := hshape
          have hlabels := congrArg (List.map (·.1)) hincoming
          simp only [List.map_map, Function.comp_def] at hlabels
          rw [← List.zip_unzip incoming, ← List.zip_unzip incoming', List.unzip_eq_map,
            List.unzip_eq_map, hlabels, hvalues]
      | _ => cases hshape
  | cast c =>
      cases j with
      | cast c' =>
          rcases c with ⟨dest, kind, value, ty⟩
          rcases c' with ⟨dest', kind', value', ty'⟩
          simp_all [shape, mapFuncs, mapOperands, mentions, operands]
      | _ => cases hshape
  | _ => cases j <;> simp_all [shape, mapFuncs, mapOperands, mentions, operands]

/-- The references to `old` are sent to `new`, and nothing else changes. -/
structure Redirects (old new : FuncId) (i i' : Instr) : Prop where
  shape : i'.shape = i.shape
  mentions : i'.mentions = i.mentions.map (.mapFunc (sendTo old new))

theorem redirects_iff {i i' : Instr} :
    i.Redirects old new i' ↔ i' = i.mapFuncs (sendTo old new) := by
  constructor
  · intro h
    apply eq_of_shape_eq
    · rw [h.shape, shape_mapFuncs]
    · rw [h.mentions, mentions_mapFuncs]
  · rintro rfl
    exact ⟨shape_mapFuncs _ i, mentions_mapFuncs _ i⟩

end Instr

structure Block.Redirects (old new : FuncId) (b b' : Block) : Prop where
  instrs : List.Forall₂ (Instr.Redirects old new) b.instrs b'.instrs
  terminator : b'.terminator = b.terminator.mapOperands (.mapFunc (sendTo old new))

/-- Header and labels stay, and each block is redirected. -/
structure Func.Redirects (old new : FuncId) (f f' : Func) : Prop where
  header : { f' with body := f.body } = f
  blocks : List.Forall₂ (fun e e' => e'.1 = e.1 ∧ e.2.Redirects old new e'.2)
    f.body.entries f'.body.entries

/-- Of the initializers only a list of functions refers to any. -/
inductive Global.Redirects (old new : FuncId) : Global → Global → Prop
  | listed {g : Global} {list : List FuncId} (h : g.init = some (.functions list)) :
      Redirects old new g { g with init := some (.functions (list.map (sendTo old new))) }
  | other {g : Global} (h : ∀ list, g.init ≠ some (.functions list)) : Redirects old new g g

theorem Block.redirects_mapFuncs (b : Block) :
    b.Redirects old new (b.mapFuncs (sendTo old new)) := by
  refine ⟨?_, rfl⟩
  rw [mapFuncs, List.forall₂_map_right_iff]
  exact List.forall₂_same.2 fun i _ => Instr.redirects_iff.2 rfl

theorem Func.redirects_mapFuncs (f : Func) :
    f.Redirects old new (f.mapBlocks (Block.mapFuncs (sendTo old new))) := by
  have hentries : (f.mapBlocks (Block.mapFuncs (sendTo old new))).body.entries =
      f.body.entries.map fun e => (e.1, e.2.mapFuncs (sendTo old new)) := rfl
  refine ⟨rfl, ?_⟩
  rw [hentries, List.forall₂_map_right_iff]
  exact List.forall₂_same.2 fun e _ => ⟨rfl, e.2.redirects_mapFuncs⟩

theorem Global.redirects_mapFuncs (g : Global) :
    g.Redirects old new (g.mapFuncs (sendTo old new)) := by
  rw [mapFuncs]
  split
  · next list h => exact .listed h
  · next h => exact .other h

theorem Module.sendTo_eq_new_iff {id : FuncId} : sendTo old new id = new ↔ id = old ∨ id = new := by
  rw [sendTo]
  split_ifs with h <;> simp [h]

/-- What refers to `new` in the end referred to one of the two. -/
theorem count_mapFunc_sendTo (hne : old ≠ new) (ops : List Operand) :
    (ops.map (Operand.mapFunc (sendTo old new))).count (Operand.func new) =
      ops.count (.func old) + ops.count (.func new) := by
  induction ops with
  | nil => rfl
  | cons op ops ih =>
      rw [List.map_cons, List.count_cons, List.count_cons, List.count_cons, ih]
      have hop : (if (op.mapFunc (sendTo old new) == .func new) = true then 1 else 0) =
          (if (op == .func old) = true then 1 else 0) +
            if (op == .func new) = true then 1 else 0 := by
        cases op with
        | func id =>
            simp only [Operand.mapFunc, beq_iff_eq, Operand.func.injEq, Module.sendTo_eq_new_iff]
            by_cases hold : id = old
            · simp [hold, hne]
            · simp [hold]
        | _ => rfl
      omega

/-- Where `p` and `q` exclude each other, the elements with one of the two are those with `p` and
those with `q`. -/
theorem filter_or_perm {α : Type} {p q : α → Bool} (h : ∀ x, p x = true → q x = false)
    (xs : List α) : (xs.filter fun x => p x || q x).Perm (xs.filter p ++ xs.filter q) := by
  induction xs with
  | nil => exact List.Perm.refl _
  | cons x xs ih =>
      cases hp : p x with
      | true => simpa [hp, h x hp] using ih
      | false =>
          cases hq : q x with
          | true => simpa [hp, hq] using (ih.cons x).trans List.perm_middle.symm
          | false => simpa [hp, hq] using ih

namespace Func

/-- The call sites of `id` in the body of `caller`. -/
def sitesOf (id caller : FuncId) (f : Func) : List CallSite :=
  (f.calls.filter fun e => e.2.callee.resolve? == some id).map fun e => ⟨caller, e.1⟩

theorem caller_of_mem_sitesOf {id caller : FuncId} {f : Func} {s : CallSite}
    (h : s ∈ f.sitesOf id caller) : s.caller = caller := by
  obtain ⟨_, -, rfl⟩ := List.mem_map.1 h
  rfl

/-- After the redirection the calls of `new` are those that resolved to one of the two. -/
theorem sitesOf_mapFuncs (hne : old ≠ new) (caller : FuncId) (f : Func) :
    ((f.mapBlocks (Block.mapFuncs (sendTo old new))).sitesOf new caller).Perm
      (f.sitesOf old caller ++ f.sitesOf new caller) := by
  have hresolve : ∀ c : Call, ((c.mapFuncs (sendTo old new)).callee.resolve? == some new) =
      (c.callee.resolve? == some old || c.callee.resolve? == some new) := by
    intro c
    rw [Bool.eq_iff_iff, Call.resolve?_mapFuncs]
    cases c.callee.resolve? <;> simp [Module.sendTo_eq_new_iff]
  have hexclude : ∀ e : Position × Call, (e.2.callee.resolve? == some old) = true →
      (e.2.callee.resolve? == some new) = false := by
    intro e he
    rw [eq_of_beq he]
    simpa using hne
  simp only [sitesOf, calls_mapFuncs, List.filter_map, List.map_map, Function.comp_def, hresolve]
  rw [← List.map_append]
  exact (filter_or_perm hexclude f.calls).map _

end Func

theorem Arena.entries_erase_perm {k : SymbolKind} {α : Type} [DecidableEq α] (a : Arena k α)
    (h : Handle k) : (a.erase h).entries.Perm (a.entries.filter fun e => e.1 ≠ h) := by
  refine (List.perm_ext_iff_of_nodup (nodup_entries _) (a.nodup_entries.filter _)).2 fun e => ?_
  rw [List.mem_filter, mem_entries_iff, mem_entries_iff]
  by_cases he : e.1 = h
  · simp [he]
  · simp [he, get?_erase_of_ne a he]

namespace Module

variable {m m' : Module} {f g r : Func}

theorem mentions_redirect (k : FuncId → FuncId) (m : Module) :
    (m.redirect k).mentions = m.mentions.map (.mapFunc k) := by
  have hlisted : ∀ g : Global, (g.mapFuncs k).listed.map Operand.func =
      (g.listed.map Operand.func).map (.mapFunc k) := by
    intro g
    simp [Function.comp_def, Operand.mapFunc]
  simp only [mentions, redirect, Arena.values, Arena.entries_map, List.map_map, List.map_append,
    List.flatMap_map, List.map_flatMap, Function.comp_apply, Func.mentions_mapFuncs, hlisted]

/-- What a module mentions is mentioned in the body of a function or left when it is erased. -/
theorem mentions_perm_of_get? {id : FuncId} (hf : m.funcs.get? id = some f) :
    m.mentions.Perm
      (f.mentions ++ ({ m with funcs := m.funcs.erase id } : Module).mentions) := by
  have hvalues : m.funcs.values.Perm (f :: (m.funcs.erase id).values) :=
    (Arena.entries_perm_of_get? hf).map _
  refine ((hvalues.flatMap_right Func.mentions).append_right _).trans (List.Perm.of_eq ?_)
  rw [List.flatMap_cons, List.append_assoc]
  rfl

theorem callSites_eq (id : FuncId) (m : Module) :
    m.callSites id = m.funcs.entries.flatMap fun e => e.2.sitesOf id e.1 := rfl

theorem filter_callSites (id : FuncId) (m : Module) :
    ((m.callSites id).filter fun s => s.caller ≠ old) =
      (m.funcs.entries.filter fun e => e.1 ≠ old).flatMap fun e => e.2.sitesOf id e.1 := by
  rw [callSites_eq]
  induction m.funcs.entries with
  | nil => rfl
  | cons e es ih =>
      rw [List.flatMap_cons, List.filter_append, ih]
      by_cases he : e.1 = old
      · rw [List.filter_cons_of_neg (by simpa using he), List.filter_eq_nil_iff.2]
        · rfl
        · intro s hs
          simp [Func.caller_of_mem_sitesOf hs, he]
      · rw [List.filter_cons_of_pos (by simpa using he), List.filter_eq_self.2, List.flatMap_cons]
        intro s hs
        simp [Func.caller_of_mem_sitesOf hs, he]

/-- `old`, which was `f`, is gone.  What referred to it refers to `new`, and nothing else has
changed since `m`. -/
structure Superseded (m : Module) (old new : FuncId) (f : Func) (m' : Module) : Prop where
  gone : m'.funcs.get? old = none
  uses_old : m'.refCount old = 0
  uses_new : m'.refCount new + (f.refCount old + f.refCount new) =
    m.refCount old + m.refCount new
  sites : (m'.callSites new).Perm
    ((m.callSites old ++ m.callSites new).filter fun s => s.caller ≠ old)
  funcs : ∀ id, id ≠ old →
    Option.Rel (Func.Redirects old new) (m.funcs.get? id) (m'.funcs.get? id)
  globals : ∀ id, Option.Rel (Global.Redirects old new) (m.globals.get? id) (m'.globals.get? id)
  name : m'.name = m.name
  triple : m'.triple = m.triple
  named : m'.named = m.named

/-- The function that is handed out is the one that was erased, its own references redirected. -/
theorem fst_of_replaceFunc (hold : m.funcs.get? old = some f)
    (h : m.replaceFunc old new = .ok (r, m')) :
    r = f.mapBlocks (Block.mapFuncs (sendTo old new)) := by
  rw [replaceFunc, hold] at h
  cases hnew : m.funcs.get? new with
  | none =>
      rw [hnew] at h
      cases h
  | some g =>
      simp only [hnew] at h
      split_ifs at h
      have hr := (eraseFunc_eq_ok h).1
      exact (Option.some.inj ((get?_redirect _ hold).symm.trans hr)).symm

/-- The redirected module mentions what is left and what the erased body mentioned. -/
theorem mentions_replaceFunc (hold : m.funcs.get? old = some f)
    (h : m.replaceFunc old new = .ok (r, m')) : (m.redirect (sendTo old new)).mentions.Perm
      (f.mentions.map (.mapFunc (sendTo old new)) ++ m'.mentions) := by
  obtain ⟨-, -, -, -, -, rfl⟩ := replaceFunc_eq_ok h
  rw [← Func.mentions_mapFuncs]
  exact mentions_perm_of_get? (get?_redirect _ hold)

theorem refCount_old_replaceFunc (hold : m.funcs.get? old = some f)
    (h : m.replaceFunc old new = .ok (r, m')) : m'.refCount old = 0 := by
  obtain ⟨-, -, -, -, hgone, -⟩ := replaceFunc_eq_ok h
  refine refCount_eq_zero_iff.2 fun hmem => hgone ?_
  exact (mentions_replaceFunc hold h).mem_iff.2 (List.mem_append_right _ hmem)

theorem refCount_new_replaceFunc (hne : old ≠ new) (hold : m.funcs.get? old = some f)
    (h : m.replaceFunc old new = .ok (r, m')) :
    m'.refCount new + (f.refCount old + f.refCount new) = m.refCount old + m.refCount new := by
  have hcount := (mentions_replaceFunc hold h).count_eq (.func new)
  rw [mentions_redirect, List.count_append, count_mapFunc_sendTo hne,
    count_mapFunc_sendTo hne] at hcount
  simp only [refCount_eq, Func.refCount_eq]
  omega

theorem callSites_replaceFunc (hne : old ≠ new) (h : m.replaceFunc old new = .ok (r, m')) :
    (m'.callSites new).Perm
      ((m.callSites old ++ m.callSites new).filter fun s => s.caller ≠ old) := by
  obtain ⟨-, -, -, -, -, rfl⟩ := replaceFunc_eq_ok h
  have hentries := Arena.entries_erase_perm (m.redirect (sendTo old new)).funcs old
  rw [redirect, Arena.entries_map, List.filter_map] at hentries
  rw [List.filter_append, filter_callSites, filter_callSites, callSites_eq]
  refine (hentries.flatMap_right _).trans ?_
  rw [List.flatMap_map]
  exact (List.Perm.flatMap_left _ fun e _ => e.2.sitesOf_mapFuncs hne e.1).trans
    (List.flatMap_append_perm _ _ _).symm

/-- A function is replaced by another of the same prototype: this always goes through, each
reference to the one becomes a reference to the other, and all else stays. -/
theorem replaceFunc_superseded (hne : old ≠ new) (hold : m.funcs.get? old = some f)
    (hnew : m.funcs.get? new = some g) (hret : f.retTy = g.retTy)
    (hparams : f.params.map (·.ty) = g.params.map (·.ty)) :
    ∃ r m', m.replaceFunc old new = .ok (r, m') ∧ f.Redirects old new r ∧
      m.Superseded old new f m' := by
  have hprototype : f.samePrototype g = true := by simp [Func.samePrototype, hret, hparams]
  obtain ⟨⟨r, m'⟩, h⟩ := exists_replaceFunc hold hnew hprototype hne
  have hreplaced := replaced_of_replaceFunc h
  refine ⟨r, m', h, fst_of_replaceFunc hold h ▸ f.redirects_mapFuncs, ?_⟩
  refine ⟨hreplaced.gone, ?_, refCount_new_replaceFunc hne hold h, callSites_replaceFunc hne h,
    fun id hid => ?_, fun id => ?_, ?_, ?_, ?_⟩
  · exact refCount_old_replaceFunc hold h
  · rw [hreplaced.other id hid]
    cases m.funcs.get? id with
    | none => exact .none
    | some f => exact .some f.redirects_mapFuncs
  · rw [hreplaced.globals id]
    cases m.globals.get? id with
    | none => exact .none
    | some g => exact .some g.redirects_mapFuncs
  all_goals
    obtain ⟨-, -, -, -, -, rfl⟩ := replaceFunc_eq_ok h
    rfl

namespace twins

def first : Func where
  name := "first"
  params := [⟨none, .privatePtr⟩]
  retTy := .privatePtr
  body := .ofList [(.entry,
    ⟨[.call ⟨some 0, .privatePtr, .direct ⟨2, 1⟩, [.arg 0], .c⟩,
      .call ⟨some 1, .privatePtr, .direct ⟨1, 1⟩, [.reg 0], .c⟩], .ret (some (.reg 1))⟩)]

def second : Func where
  name := "second"
  params := [⟨some "p", .privatePtr⟩]
  retTy := .privatePtr

/-- A function and a global refer to two functions of the same prototype, in all the ways there
are, and one of the two calls itself and the other. -/
def twinModule : Module where
  funcs := .ofList [first, second,
    { name := "user", params := [], retTy := .privatePtr
      body := .ofList [
        (0, ⟨[.call ⟨none, .privatePtr, .direct ⟨1, 1⟩, [.func ⟨1, 1⟩], .c⟩,
          .call ⟨none, .void, .cast ⟨1, 1⟩, [.func ⟨2, 1⟩], .c⟩,
          .call ⟨none, .privatePtr, .indirect (.func ⟨1, 1⟩), [.undefined], .c⟩,
          .call ⟨none, .privatePtr, .direct ⟨2, 1⟩, [.undefined], .c⟩], .jump 1⟩),
        (1, ⟨[.phi ⟨0, .privatePtr, [(0, .func ⟨1, 1⟩), (1, .reg 0)]⟩,
          .store (.reg 0) (.func ⟨1, 1⟩) false], .ret (some (.func ⟨1, 1⟩))⟩)] }]
  globals := .ofList [
    { name := "table", ty := .privatePtr, init := some (.functions [⟨1, 1⟩, ⟨2, 1⟩, ⟨1, 1⟩]) }]

end twins

open twins in
theorem twins_superseded : ∃ r m', twinModule.replaceFunc ⟨1, 1⟩ ⟨2, 1⟩ = .ok (r, m') ∧
    twinModule.Superseded ⟨1, 1⟩ ⟨2, 1⟩ first m' ∧ m'.refCount ⟨2, 1⟩ = 12 ∧
      (m'.callSites ⟨2, 1⟩).length = 4 := by
  have hold : twinModule.funcs.get? ⟨1, 1⟩ = some first := by decide +kernel
  have hnew : twinModule.funcs.get? ⟨2, 1⟩ = some second := by decide +kernel
  obtain ⟨r, m', hr, -, hm'⟩ :=
    replaceFunc_superseded (by decide) hold hnew (by decide +kernel) (by decide +kernel)
  refine ⟨r, m', hr, hm', ?_, ?_⟩
  · have hcount := hm'.uses_new
    have huses : twinModule.refCount ⟨1, 1⟩ = 10 ∧ twinModule.refCount ⟨2, 1⟩ = 4 ∧
        first.refCount ⟨1, 1⟩ = 1 ∧ first.refCount ⟨2, 1⟩ = 1 := by decide +kernel
    omega
  · rw [hm'.sites.length_eq]
    decide +kernel

end Module

end KernelIR
