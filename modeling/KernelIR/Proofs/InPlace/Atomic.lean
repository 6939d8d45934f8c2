import KernelIR.Declaration
import KernelIR.KernelName
import KernelIR.Proofs.Failing.Totals
import KernelIR.Proofs.History
import KernelIR.Proofs.InPlace.Functions
import KernelIR.WorkGroupSize
import Mathlib

/-!
# Edits in place are atomic

A module is edited by writing to it, step by step, and a step that fails leaves behind what the
steps before it wrote.  Even so an edit either succeeds or changes nothing.  The only one that can
fail behind a write replaces a function that is still referred to by itself, where redirecting the
references writes what was there.
-/

namespace KernelIR

theorem Operand.mapFunc_id_eq : Operand.mapFunc id = id := funext Operand.mapFunc_id

theorem Instr.mapFuncs_id (i : Instr) : i.mapFuncs id = i := by
  cases i with
  | call c =>
      obtain ⟨dest, ty, callee, args, conv⟩ := c
      cases callee <;> simp [mapFuncs, Callee.mapTarget, Operand.mapFunc_id_eq, mapOperands_id]
  | _ => simp [mapFuncs, Operand.mapFunc_id_eq, mapOperands_id]

theorem Block.mapFuncs_id (b : Block) : b.mapFuncs id = b := by
  rw [mapFuncs, Operand.mapFunc_id_eq, Terminator.mapOperands_id,
    List.map_congr_left fun i _ => Instr.mapFuncs_id i, List.map_id']

theorem Func.mapBlocks_eq_self {f : Func} {g : Block → Block} (hg : ∀ b, g b = b) :
    f.mapBlocks g = f := by
  have hbody : f.body.map g = f.body := OrderedMap.ext_find? fun k => by
    rw [OrderedMap.find?_map, funext hg, Option.map_id']
  rw [mapBlocks, hbody]

namespace Module

variable {m : Module} {id : FuncId} {f : Func}

theorem redirect_id (m : Module) : m.redirect (fun id => id) = m := by
  rw [redirect, Arena.map_eq_self fun _ f _ => f.mapBlocks_eq_self Block.mapFuncs_id,
    Arena.map_eq_self fun _ g _ => g.mapFuncs_id]

theorem sendTo_self (old : FuncId) : sendTo old old = fun id => id := by
  funext id
  rw [sendTo]
  split_ifs with h
  · exact h.symm
  · rfl

theorem replaceFunc_eq {old new : FuncId} {f g : Func} (hf : m.funcs.get? old = some f)
    (hg : m.funcs.get? new = some g) : m.replaceFunc old new =
      if f.samePrototype g then (m.redirect (sendTo old new)).eraseFunc old
      else .error (.signatureMismatch f.name g.name) := by
  rw [replaceFunc, hf, hg]
  rfl

/-- An edit of one function that is there. -/
def editFunc {α : Type} (m : Module) (id : FuncId) (e : Func → Except IRError (α × Func)) :
    Except Failure (α × Module) :=
  match m.funcs.get? id with
  | none => .error (.deadHandle id)
  | some f => (IRError.lift (e f)).map fun r => (r.1, m.setFunc id r.2)

end Module

namespace ModuleM

variable {α β : Type} {m m' : Module} {id : FuncId} {f : Func}

theorem apply_edit_eq_edited (e : Module → Except Failure (α × Module)) (m : Module) :
    (edit e).apply m = edited m (e m) := by
  rw [apply_edit]
  cases e m <;> rfl

theorem apply_ofExcept (r : Except Failure α) (m : Module) :
    (MonadExcept.ofExcept r : ModuleM α).apply m = (r, m) := by
  cases r <;> rfl

/-- What is answered after an edit does not change what the edit left. -/
theorem apply_bind_pure {x : ModuleM α} {r : Except Failure (α × Module)}
    (h : x.apply m = edited m r) (g : α → β) :
    (x >>= fun a => pure (g a)).apply m = edited m (r.map fun p => (g p.1, p.2)) := by
  rw [apply_bind, h]
  cases r <;> rfl

/-- A function that is not there ends the action before anything is written. -/
theorem apply_func_bind {x : Func → ModuleM α} {r : Func → Except Failure (α × Module)}
    (h : ∀ f, m.funcs.get? id = some f → (x f).apply m = edited m (r f)) :
    (func id >>= x).apply m = edited m (match m.funcs.get? id with
      | none => .error (.deadHandle id)
      | some f => r f) := by
  cases hf : m.funcs.get? id with
  | none =>
      rw [apply_bind_of_error (apply_func_of_none hf)]
      rfl
  | some f =>
      rw [apply_bind_of_ok (apply_func_of_some hf)]
      exact h f hf

/-- Lets an action write to a function that is there.  What it wrote before it failed stays. -/
def onFunc (id : FuncId) (x : FuncM α) : ModuleM α := do
  let f ← func id
  let r := x.apply f
  change fun m => ((), m.setFunc id r.2)
  MonadExcept.ofExcept (IRError.lift r.1)

theorem apply_onFunc_of_edited {x : FuncM α} {r : Except IRError (α × Func)}
    (hf : m.funcs.get? id = some f) (hx : x.apply f = edited f r) :
    (onFunc id x).apply m =
      edited m ((IRError.lift r).map fun p => (p.1, m.setFunc id p.2)) := by
  rw [onFunc, apply_bind_of_ok (apply_func_of_some hf)]
  dsimp only
  rw [apply_bind_of_ok (apply_change _ _), apply_ofExcept, hx]
  cases r with
  | ok p => rfl
  | error e => exact Prod.ext rfl (Module.setFunc_eq_self hf)

theorem apply_onFunc {x : FuncM α} {e : Func → Except IRError (α × Func)}
    (hx : ∀ f, x.apply f = edited f (e f)) (id : FuncId) (m : Module) :
    (onFunc id x).apply m = edited m (m.editFunc id e) := by
  refine apply_func_bind fun f hf => ?_
  rw [← apply_onFunc_of_edited hf (hx f), onFunc, apply_bind_of_ok (apply_func_of_some hf)]

end ModuleM

namespace InPlace

open ModuleM

def renameFunc (id : FuncId) (name : String) : ModuleM PUnit := do
  let m ← get
  match m.funcs.get? id with
  | none => throw (.illFormed (.undefinedFunction name))
  | some f =>
    if f.name = name then pure ⟨⟩
    else if m.isTaken name then throw (.illFormed (.duplicateSymbol name))
    else change fun m => (⟨⟩, m.modifyFunc id fun f => { f with name })

def eraseFunc (id : FuncId) : ModuleM Func := do
  let m ← get
  match m.funcs.get? id with
  | none => throw (.illFormed (.undefinedFunction id.text))
  | some f =>
    let uses := m.refCount id
    if uses = 0 then change fun m => (f, { m with funcs := m.funcs.erase id })
    else throw (.illFormed (.stillReferenced f.name uses))

/-- All references are redirected before the function is erased, which checks that there are none
left. -/
def replaceFunc (old new : FuncId) : ModuleM Func := do
  let m ← get
  match m.funcs.get? old, m.funcs.get? new with
  | none, _ => throw (.illFormed (.undefinedFunction old.text))
  | some _, none => throw (.illFormed (.undefinedFunction new.text))
  | some f, some g =>
    if f.samePrototype g then
      change fun m => ((), m.redirect (Module.sendTo old new))
      eraseFunc old
    else throw (.illFormed (.signatureMismatch f.name g.name))

def setKernelName (id : FuncId) : ModuleM (Option String) := do
  let f ← func id
  if KernelName.isSynthesized f.name then pure none
  else
    let name := KernelName.synthesize f.name
    MonadExcept.ofExcept (KernelName.checkLength name)
    renameFunc id name
    pure (some name)

def attachWorkGroupSize (id : FuncId) (d : Demangler) : ModuleM Bool := do
  let f ← func id
  match ← MonadExcept.ofExcept (WorkGroupSize.ofDemangled f.name (d.orRaw f.name)) with
  | none => pure false
  | some size =>
    change fun m => (true, m.modifyFunc id fun f =>
      { f with metadata := f.metadata.insert WorkGroupSize.metadataKey size.node })

def bindDeclaration (id : FuncId) : ModuleM (Option String) := do
  let f ← func id
  let name ← MonadExcept.ofExcept (MangledName.normalize f.name)
  let m ← get
  if name = f.name then pure none
  else if (m.findGlobal? name).isSome then throw (.collision f.name name)
  else
    match m.findFunc? name with
    | none =>
      renameFunc id name
      pure (some name)
    | some existing =>
      let g ← func existing
      if g.samePrototype f then
        let _ ← replaceFunc id existing
        pure (some name)
      else throw (.collision f.name name)

def expandMemCall (site : CallSite) (kind : MemIntrinsic) : ModuleM PUnit := do
  let f ← func site.caller
  let call ← MonadExcept.ofExcept (IRError.lift (f.callAt site.pos))
  let m ← get
  match m.memCall? f kind call with
  | none => throw (.unsupported (m.calleeName call) f.name)
  | some c => onFunc site.caller (FuncM.expand c site.pos)

def inlineAt (site : CallSite) : ModuleM Label := do
  let m ← get
  let (_, call, callee) ← MonadExcept.ofExcept (Inline.target m site)
  onFunc site.caller (FuncM.splice call callee site.pos)

variable {m : Module} {id : FuncId} {f : Func}

theorem apply_renameFunc (id : FuncId) (name : String) (m : Module) :
    (renameFunc id name).apply m =
      edited m ((IRError.lift (m.renameFunc id name)).map fun m' => (⟨⟩, m')) := by
  rw [renameFunc, apply_bind_of_ok (apply_get m), Module.renameFunc]
  cases m.funcs.get? id with
  | none => rfl
  | some f =>
      dsimp only
      split_ifs <;> rfl

theorem apply_eraseFunc (id : FuncId) (m : Module) :
    (eraseFunc id).apply m = edited m (IRError.lift (m.eraseFunc id)) := by
  rw [eraseFunc, apply_bind_of_ok (apply_get m), Module.eraseFunc]
  cases m.funcs.get? id with
  | none => rfl
  | some f =>
      dsimp only
      split_ifs <;> rfl

/-- Erasing fails behind the redirection only if `old` and `new` are one function. -/
theorem apply_replaceFunc (old new : FuncId) (m : Module) :
    (replaceFunc old new).apply m = edited m (IRError.lift (m.replaceFunc old new)) := by
  rw [replaceFunc, apply_bind_of_ok (apply_get m)]
  cases hold : m.funcs.get? old with
  | none =>
      rw [Module.replaceFunc, hold]
      rfl
  | some f =>
      cases hnew : m.funcs.get? new with
      | none =>
          rw [Module.replaceFunc, hold, hnew]
          rfl
      | some g =>
          rw [Module.replaceFunc_eq hold hnew]
          dsimp only
          split_ifs with hprototype
          · rw [apply_bind_of_ok (apply_change _ _), apply_eraseFunc]
            by_cases heq : old = new
            · rw [heq, Module.sendTo_self, Module.redirect_id]
            · obtain ⟨r, hr⟩ := m.exists_replaceFunc hold hnew hprototype heq
              rw [Module.replaceFunc_eq hold hnew, if_pos hprototype] at hr
              rw [hr]
              rfl
          · rfl

theorem apply_setKernelName (id : FuncId) (m : Module) :
    (setKernelName id).apply m = edited m (m.setKernelName id) := by
  refine apply_func_bind fun f _ => ?_
  split_ifs
  · rfl
  · dsimp only
    cases KernelName.checkLength (KernelName.synthesize f.name) with
    | error e => rfl
    | ok _ =>
        rw [apply_bind_of_ok (apply_ofExcept _ m), apply_bind_pure (apply_renameFunc id _ m)]
        cases m.renameFunc id (KernelName.synthesize f.name) <;> rfl

theorem apply_attachWorkGroupSize (id : FuncId) (d : Demangler) (m : Module) :
    (attachWorkGroupSize id d).apply m = edited m (m.attachWorkGroupSize id d) := by
  refine apply_func_bind fun f _ => ?_
  rcases WorkGroupSize.ofDemangled f.name (d.orRaw f.name) with e | _ | size <;> rfl

theorem apply_bindDeclaration (id : FuncId) (m : Module) :
    (bindDeclaration id).apply m = edited m (m.bindDeclaration id) := by
  refine apply_func_bind fun f _ => ?_
  cases MangledName.normalize f.name with
  | error e => rfl
  | ok name =>
      rw [apply_bind_of_ok (apply_ofExcept _ m), apply_bind_of_ok (apply_get m)]
      dsimp only
      split_ifs
      · rfl
      · rfl
      · cases m.findFunc? name with
        | none =>
            dsimp only
            rw [apply_bind_pure (apply_renameFunc id name m)]
            cases m.renameFunc id name <;> rfl
        | some existing =>
            refine apply_func_bind fun g _ => ?_
            split_ifs
            · rw [apply_bind_pure (apply_replaceFunc id existing m)]
              cases m.replaceFunc id existing <;> rfl
            · rfl

theorem apply_expandMemCall (site : CallSite) (kind : MemIntrinsic) (m : Module) :
    (expandMemCall site kind).apply m =
      edited m ((m.expandMemCall site kind).map fun m' => (⟨⟩, m')) := by
  rw [expandMemCall, Module.expandMemCall]
  cases hf : m.funcs.get? site.caller with
  | none =>
      rw [apply_bind_of_error (apply_func_of_none hf)]
      rfl
  | some f =>
      rw [apply_bind_of_ok (apply_func_of_some hf)]
      dsimp only
      cases hcall : f.callAt site.pos with
      | error e => rfl
      | ok call =>
          rw [apply_bind_of_ok (apply_ofExcept (IRError.lift (.ok call)) m),
            apply_bind_of_ok (apply_get m)]
          dsimp only
          cases m.memCall? f kind call with
          | none => rfl
          | some c =>
              dsimp only
              rw [apply_onFunc_of_edited hf (FuncM.apply_expand hcall c)]
              cases c.expand f site.pos <;> rfl

theorem apply_inlineAt (site : CallSite) (m : Module) :
    (inlineAt site).apply m = edited m (m.inlineAt site) := by
  rw [inlineAt, apply_bind_of_ok (apply_get m), Module.inlineAt]
  cases htarget : Inline.target m site with
  | error e => rfl
  | ok t =>
      obtain ⟨caller, call, callee⟩ := t
      obtain ⟨id, hinline⟩ := Inline.target_eq_ok htarget
      rw [apply_bind_of_ok (apply_ofExcept _ m)]
      dsimp only
      rw [apply_onFunc_of_edited hinline.caller_live (FuncM.apply_splice hinline.call_at callee)]
      cases Inline.splice caller call callee site.pos <;> rfl

end InPlace

/-- An edit of a module that may fail, with the type of its answer. -/
inductive FallibleEdit : Type → Type
  | inlineAt (site : CallSite) : FallibleEdit Label
  | expandMemCall (site : CallSite) (kind : MemIntrinsic) : FallibleEdit PUnit
  | bindDeclaration (id : FuncId) : FallibleEdit (Option String)
  | setKernelName (id : FuncId) : FallibleEdit (Option String)
  | attachWorkGroupSize (id : FuncId) (d : Demangler) : FallibleEdit Bool
  | replaceFunc (old new : FuncId) : FallibleEdit Func
  | eraseFunc (id : FuncId) : FallibleEdit Func
  | splitBlock (id : FuncId) (label : Label) (index : Nat) : FallibleEdit Label
  | insertInstr (id : FuncId) (pos : Position) (i : Instr) : FallibleEdit PUnit
  | removeInstr (id : FuncId) (pos : Position) : FallibleEdit Instr

namespace FallibleEdit

variable {α : Type}

/-- The edit as it answers a module. -/
def run : FallibleEdit α → Module → Except Failure (α × Module)
  | inlineAt site, m => m.inlineAt site
  | expandMemCall site kind, m => (m.expandMemCall site kind).map fun m' => (⟨⟩, m')
  | bindDeclaration id, m => m.bindDeclaration id
  | setKernelName id, m => m.setKernelName id
  | attachWorkGroupSize id d, m => m.attachWorkGroupSize id d
  | replaceFunc old new, m => IRError.lift (m.replaceFunc old new)
  | eraseFunc id, m => IRError.lift (m.eraseFunc id)
  | splitBlock id label index, m => m.editFunc id fun f => f.splitBlock label index
  | insertInstr id pos i, m =>
    m.editFunc id fun f => (f.insertInstr pos i).map fun f' => (⟨⟩, f')
  | removeInstr id pos, m => m.editFunc id fun f => f.removeInstr pos

/-- The edit as it writes to the module. -/
def inPlace : FallibleEdit α → ModuleM α
  | inlineAt site => InPlace.inlineAt site
  | expandMemCall site kind => InPlace.expandMemCall site kind
  | bindDeclaration id => InPlace.bindDeclaration id
  | setKernelName id => InPlace.setKernelName id
  | attachWorkGroupSize id d => InPlace.attachWorkGroupSize id d
  | replaceFunc old new => InPlace.replaceFunc old new
  | eraseFunc id => InPlace.eraseFunc id
  | splitBlock id label index => ModuleM.onFunc id (FuncM.splitBlock label index)
  | insertInstr id pos i => ModuleM.onFunc id (FuncM.insertInstr pos i)
  | removeInstr id pos => ModuleM.onFunc id (FuncM.removeInstr pos)

theorem apply_inPlace (e : FallibleEdit α) (m : Module) :
    e.inPlace.apply m = edited m (e.run m) := by
  cases e with
  | inlineAt site => exact InPlace.apply_inlineAt site m
  | expandMemCall site kind => exact InPlace.apply_expandMemCall site kind m
  | bindDeclaration id => exact InPlace.apply_bindDeclaration id m
  | setKernelName id => exact InPlace.apply_setKernelName id m
  | attachWorkGroupSize id d => exact InPlace.apply_attachWorkGroupSize id d m
  | replaceFunc old new => exact InPlace.apply_replaceFunc old new m
  | eraseFunc id => exact InPlace.apply_eraseFunc id m
  | splitBlock id label index =>
      exact ModuleM.apply_onFunc (fun f => FuncM.apply_splitBlock f label index) id m
  | insertInstr id pos i =>
      exact ModuleM.apply_onFunc (fun f => FuncM.apply_insertInstr f pos i) id m
  | removeInstr id pos =>
      exact ModuleM.apply_onFunc (fun f => FuncM.apply_removeInstr f pos) id m

/-- An edit that writes to the module as it goes on does what the edit does that answers a module.
Whenever it fails, the module that it leaves is the one that it found. -/
theorem inPlace_atomic (e : FallibleEdit α) (m : Module) :
    e.inPlace.apply m = (ModuleM.edit e.run).apply m ∧
      ∀ failure m', e.inPlace.apply m = (.error failure, m') → m' = m := by
  refine ⟨(e.apply_inPlace m).trans (ModuleM.apply_edit_eq_edited e.run m).symm, ?_⟩
  intro failure m' h
  rw [apply_inPlace] at h
  cases hrun : e.run m with
  | ok r =>
      rw [hrun] at h
      cases h
  | error e' =>
      rw [hrun] at h
      exact (congrArg Prod.snd h).symm

namespace referred

/-- The function that is declared has one use. -/
def source : Module where
  funcs := .ofList [
    { name := "put", params := [], retTy := .void },
    { name := "fill", params := [], retTy := .void,
      body := .ofList [(.entry, ⟨[.call ⟨none, .void, .direct ⟨1, 1⟩, [], .c⟩], .ret none⟩)] }]

def site : CallSite := ⟨⟨2, 1⟩, ⟨.entry, 0⟩⟩

end referred

open referred in
/-- The call has no body to put in its place.  That its callee is still referred to turns out when
the references have been redirected. -/
theorem referred_atomic :
    (FallibleEdit.inlineAt site).inPlace.apply source =
        (.error (.notInlinable "fill" (.noBody "put")), source) ∧
      (FallibleEdit.replaceFunc ⟨1, 1⟩ ⟨1, 1⟩).inPlace.apply source =
        (.error (.illFormed (.stillReferenced "put" 1)), source) := by
  have hinline : ((FallibleEdit.inlineAt site).inPlace.apply source).1 =
      .error (.notInlinable "fill" (.noBody "put")) := by decide +kernel
  have hreplace : ((FallibleEdit.replaceFunc ⟨1, 1⟩ ⟨1, 1⟩).inPlace.apply source).1 =
      .error (.illFormed (.stillReferenced "put" 1)) := by decide +kernel
  exact ⟨Prod.ext hinline ((inPlace_atomic _ source).2 _ _ (Prod.ext hinline rfl)),
    Prod.ext hreplace ((inPlace_atomic _ source).2 _ _ (Prod.ext hreplace rfl))⟩

end FallibleEdit

end KernelIR
