import KernelIR.MemoryLoop
import KernelIR.Proofs.Body
import KernelIR.Proofs.Inline.Calls
import Mathlib

/-!
# Editing a function in place

An edit that answers the edited function changes nothing when it fails.  The actions here write to
the function as they go on, and what was written before a failure stays.  Their checks come before
the first write, or cannot fail behind it, so that they do what the edits do.
-/

namespace KernelIR

/-- Entries that are changed one after the other are changed together. -/
theorem OrderedMap.foldl_modify {κ α : Type} [Ord κ] [Std.TransOrd κ] [Std.LawfulEqOrd κ]
    [DecidableEq κ] {keys : List κ} (hkeys : keys.Nodup) (g : α → α) (m : OrderedMap κ α) :
    keys.foldl (fun m k => m.modify k g) m =
      m.mapWithKey fun k v => if k ∈ keys then g v else v := by
  induction keys generalizing m with
  | nil => exact ext_find? fun k => by simp
  | cons k keys ih =>
      obtain ⟨hk, hkeys⟩ := List.nodup_cons.1 hkeys
      rw [List.foldl_cons, ih hkeys]
      refine ext_find? fun k' => ?_
      rw [find?_mapWithKey, find?_mapWithKey]
      by_cases heq : k' = k
      · subst heq
        simp [hk, Function.comp_def]
      · rw [find?_modify_of_ne _ heq]
        simp [heq]

/-- What is answered, and what is left of `s`, by an edit that changes nothing when it fails. -/
def edited {ε σ α : Type} (s : σ) : Except ε (α × σ) → Except ε α × σ
  | .ok (a, s') => (.ok a, s')
  | .error e => (.error e, s)

/-- An action that writes to a function as it goes on, and may fail. -/
abbrev FuncM := ExceptT IRError (StateM Func)

namespace FuncM

variable {α β : Type}

def apply (x : FuncM α) (f : Func) : Except IRError α × Func := x.run.run f

@[simp] theorem apply_get (f : Func) : (get : FuncM Func).apply f = (.ok f, f) := rfl

@[simp] theorem apply_modify (g : Func → Func) (f : Func) :
    (modify g : FuncM PUnit).apply f = (.ok ⟨⟩, g f) := rfl

/-- What was written before a failure stays. -/
theorem apply_bind (x : FuncM α) (g : α → FuncM β) (f : Func) :
    (x >>= g).apply f =
      match x.apply f with
      | (.ok a, f') => (g a).apply f'
      | (.error e, f') => (.error e, f') := by
  simp only [apply, ExceptT.run_bind, StateT.run_bind]
  rcases StateT.run (ExceptT.run x) f with ⟨r, f'⟩
  cases r <;> rfl

theorem apply_bind_of_ok {x : FuncM α} {f f' : Func} {a : α} (h : x.apply f = (.ok a, f'))
    (g : α → FuncM β) : (x >>= g).apply f = (g a).apply f' := by
  rw [apply_bind, h]

theorem apply_bind_of_error {x : FuncM α} {f f' : Func} {e : IRError}
    (h : x.apply f = (.error e, f')) (g : α → FuncM β) :
    (x >>= g).apply f = (.error e, f') := by
  rw [apply_bind, h]

/-- Writes to the body that are made one after the other. -/
theorem apply_forM_body {ι : Type} (xs : List ι)
    (g : ι → OrderedMap Label Block → OrderedMap Label Block) (f : Func) :
    (forM xs fun x => (modify fun f => { f with body := g x f.body } : FuncM PUnit)).apply f =
      (.ok ⟨⟩, { f with body := xs.foldl (fun body x => g x body) f.body }) := by
  induction xs generalizing f with
  | nil => rfl
  | cons x xs ih => rw [List.forM_cons, apply_bind_of_ok (apply_modify _ f), ih, List.foldl_cons]

/-- A block that has to be there. -/
def block (label : Label) : FuncM Block := do
  let f ← get
  match f.body.find? label with
  | some b => pure b
  | none => throw (.undefinedBlock f.name label)

def putBlock (label : Label) (b : Block) : FuncM PUnit :=
  modify fun f => { f with body := f.body.insert label b }

def modifyBlock (label : Label) (g : Block → Block) : FuncM PUnit :=
  modify fun f => { f with body := f.body.modify label g }

/-- The block is cut off, its tail becomes a block of its own, and the blocks that the tail leads to
are told, one after the other. -/
def splitBlock (label : Label) (index : Nat) : FuncM Label := do
  let f ← get
  let fresh := f.nextLabel
  let b ← block label
  if index ≤ b.instrs.length then
    putBlock label ⟨b.instrs.take index, .jump fresh⟩
    putBlock fresh ⟨b.instrs.drop index, b.terminator⟩
    forM b.terminator.targets.dedup fun successor =>
      modifyBlock successor (Block.mapPhiLabels (Func.relabel label fresh))
    pure fresh
  else throw (.undefinedInstr f.name ⟨label, index⟩)

def insertInstr (pos : Position) (i : Instr) : FuncM PUnit := do
  let f ← get
  let b ← block pos.label
  if pos.index ≤ b.instrs.length then
    putBlock pos.label { b with instrs := b.instrs.insertIdx pos.index i }
  else throw (.undefinedInstr f.name pos)

def removeInstr (pos : Position) : FuncM Instr := do
  let f ← get
  let b ← block pos.label
  match b.instrs[pos.index]? with
  | none => throw (.undefinedInstr f.name pos)
  | some i =>
    putBlock pos.label { b with instrs := b.instrs.eraseIdx pos.index }
    pure i

/-- Puts the body of `callee` in the place of a call: the block of the call is split and the call
removed, the blocks are copied one after the other, the first half of the block enters them, and
then the result gets its value. -/
def splice (call : Call) (callee : Func) (pos : Position) : FuncM Label := do
  let caller ← get
  let continuation ← splitBlock pos.label (pos.index + 1)
  let _ ← removeInstr pos
  let opened ← get
  let s : Splice := ⟨callee, call.args, caller.nextReg, opened.nextLabel, continuation⟩
  forM s.blocks fun e => putBlock e.1 e.2
  modify fun f => f.setTerminator pos.label (.jump (s.label .entry))
  match call.dest with
  | none => pure continuation
  | some dest =>
    modify fun f => f.bindResult dest call.ty continuation s.returns
    pure continuation

/-- Puts a loop in the place of a call: the block of the call is split and the call removed, the
first half gets its guard, and the blocks of the loop are added one after the other. -/
def expand (c : MemCall) (pos : Position) : FuncM PUnit := do
  let exit ← splitBlock pos.label (pos.index + 1)
  let _ ← removeInstr pos
  let opened ← get
  modifyBlock pos.label (c.guardHeader opened.nextReg opened.nextLabel exit)
  forM (c.blocks (opened.nextReg + 1) pos.label opened.nextLabel exit) fun e => putBlock e.1 e.2

variable {f : Func} {label : Label} {pos : Position} {b : Block}

theorem apply_block (hb : f.body.find? label = some b) : (block label).apply f = (.ok b, f) := by
  rw [block, apply_bind, apply_get]
  dsimp only
  rw [hb]
  rfl

theorem apply_block_none (hb : f.body.find? label = none) :
    (block label).apply f = (.error (.undefinedBlock f.name label), f) := by
  rw [block, apply_bind, apply_get]
  dsimp only
  rw [hb]
  rfl

theorem apply_putBlock (f : Func) (label : Label) (b : Block) :
    (putBlock label b).apply f = (.ok ⟨⟩, { f with body := f.body.insert label b }) := rfl

theorem apply_forM_putBlock (blocks : List (Label × Block)) (f : Func) :
    (forM blocks fun e => putBlock e.1 e.2).apply f = (.ok ⟨⟩, f.insertBlocks blocks) :=
  apply_forM_body blocks (fun e body => body.insert e.1 e.2) f

/-- Each of the blocks is changed once. -/
theorem apply_forM_modifyBlock {labels : List Label} (hlabels : labels.Nodup) (g : Block → Block)
    (f : Func) : (forM labels fun l => modifyBlock l g).apply f =
      (.ok ⟨⟩, { f with body := f.body.mapWithKey fun l b => if l ∈ labels then g b else b }) := by
  rw [← OrderedMap.foldl_modify hlabels]
  exact apply_forM_body labels (fun l body => body.modify l g) f

theorem apply_splitBlock (f : Func) (label : Label) (index : Nat) :
    (splitBlock label index).apply f = edited f (f.splitBlock label index) := by
  rw [splitBlock, apply_bind_of_ok (apply_get f), Func.splitBlock, Func.splitBlockAt]
  cases hb : f.body.find? label with
  | none =>
      rw [apply_bind_of_error (apply_block_none hb)]
      rfl
  | some b =>
      rw [apply_bind_of_ok (apply_block hb)]
      dsimp only
      split_ifs with hindex
      · rw [apply_bind_of_ok (apply_putBlock _ _ _), apply_bind_of_ok (apply_putBlock _ _ _),
          apply_bind_of_ok (apply_forM_modifyBlock (List.nodup_dedup _) _ _)]
        simp only [List.mem_dedup]
        rfl
      · rfl

theorem apply_insertInstr (f : Func) (pos : Position) (i : Instr) :
    (insertInstr pos i).apply f = edited f ((f.insertInstr pos i).map fun f' => (⟨⟩, f')) := by
  rw [insertInstr, apply_bind_of_ok (apply_get f), Func.insertInstr]
  cases hb : f.body.find? pos.label with
  | none =>
      rw [apply_bind_of_error (apply_block_none hb)]
      rfl
  | some b =>
      rw [apply_bind_of_ok (apply_block hb)]
      dsimp only
      split_ifs with hindex <;> rfl

theorem apply_removeInstr (f : Func) (pos : Position) :
    (removeInstr pos).apply f = edited f (f.removeInstr pos) := by
  rw [removeInstr, apply_bind_of_ok (apply_get f), Func.removeInstr]
  cases hb : f.body.find? pos.label with
  | none =>
      rw [apply_bind_of_error (apply_block_none hb)]
      rfl
  | some b =>
      rw [apply_bind_of_ok (apply_block hb)]
      dsimp only
      cases b.instrs[pos.index]? <;> rfl

variable {call : Call}

/-- At a call, neither the split nor the removal fails. -/
theorem exists_apply_opened (hcall : f.callAt pos = .ok call) : ∃ split i opened,
    f.splitBlock pos.label (pos.index + 1) = .ok (f.nextLabel, split) ∧
      split.removeInstr pos = .ok (i, opened) ∧
      (splitBlock pos.label (pos.index + 1)).apply f = (.ok f.nextLabel, split) ∧
      (removeInstr pos).apply split = (.ok i, opened) := by
  obtain ⟨b, hb, hi⟩ := Func.callAt_eq_ok_iff.1 hcall
  obtain ⟨split, i, opened, hsplit, hremove⟩ := Func.exists_opened hb hi
  exact ⟨split, i, opened, hsplit, hremove, by rw [apply_splitBlock, hsplit, edited],
    by rw [apply_removeInstr, hremove, edited]⟩

theorem apply_splice (hcall : f.callAt pos = .ok call) (callee : Func) :
    (splice call callee pos).apply f = edited f (Inline.splice f call callee pos) := by
  obtain ⟨split, i, opened, hsplit, hremove, hs, hr⟩ := exists_apply_opened hcall
  rw [splice, apply_bind_of_ok (apply_get f), apply_bind_of_ok hs, apply_bind_of_ok hr,
    apply_bind_of_ok (apply_get opened), Inline.splice, hsplit]
  dsimp only
  rw [hremove, apply_bind_of_ok (apply_forM_putBlock _ _), apply_bind_of_ok (apply_modify _ _)]
  cases call.dest <;> rfl

theorem apply_expand (hcall : f.callAt pos = .ok call) (c : MemCall) :
    (expand c pos).apply f = edited f ((c.expand f pos).map fun f' => (⟨⟩, f')) := by
  obtain ⟨split, i, opened, hsplit, hremove, hs, hr⟩ := exists_apply_opened hcall
  rw [expand, apply_bind_of_ok hs, apply_bind_of_ok hr, apply_bind_of_ok (apply_get opened),
    MemCall.expand, hsplit]
  dsimp only
  rw [hremove, apply_bind_of_ok (show (modifyBlock pos.label _).apply opened = _ from rfl),
    apply_forM_putBlock]
  rfl

end FuncM

end KernelIR
