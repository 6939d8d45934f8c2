import KernelIR.Failure
import KernelIR.Module.Verify

/-!
# Actions on a module

An action may fail, and what it changed before it failed stays: the module that goes on is the one
the failure left.  Edits that change nothing when they fail are plain functions and enter by
`edit`.
-/

namespace KernelIR

/-- An action on a module that answers an `α` or fails. -/
abbrev ModuleM := ExceptT Failure (StateM Module)

namespace ModuleM

variable {α : Type}

def apply (x : ModuleM α) (m : Module) : Except Failure α × Module := x.run.run m

/-- An edit that changes nothing when it fails. -/
def edit (f : Module → Except Failure (α × Module)) : ModuleM α := do
  match f (← get) with
  | .ok (a, m) => set m; pure a
  | .error e => throw e

def change (f : Module → α × Module) : ModuleM α := modifyGet f

def func (id : FuncId) : ModuleM Func := do
  match (← get).funcs.get? id with
  | some f => pure f
  | none => throw (.deadHandle id)

def ofExcept : Except IRError α → ModuleM α
  | .ok a => pure a
  | .error e => throw (.illFormed e)

/-- A count in words.  A build with checks stops where the words are used up. -/
def word : Option α → ModuleM α
  | some a => pure a
  | none => throw .overflow

def sumOver {β : Type} (xs : List β) (x : β → ModuleM Nat) : ModuleM Nat :=
  xs.foldlM (fun n b => do return n + (← x b)) 0

variable {β : Type}

@[simp] theorem apply_pure (a : α) (m : Module) : (pure a : ModuleM α).apply m = (.ok a, m) := rfl

@[simp] theorem apply_throw (e : Failure) (m : Module) :
    (throw e : ModuleM α).apply m = (.error e, m) := rfl

@[simp] theorem word_some_bind (a : α) (f : α → ModuleM β) : word (some a) >>= f = f a :=
  pure_bind a f

@[simp] theorem apply_get (m : Module) : (get : ModuleM Module).apply m = (.ok m, m) := rfl

@[simp] theorem apply_change (f : Module → α × Module) (m : Module) :
    (change f).apply m = (.ok (f m).1, (f m).2) := rfl

/-- A failure ends the action, and what was changed before it stays. -/
theorem apply_bind (x : ModuleM α) (f : α → ModuleM β) (m : Module) :
    (x >>= f).apply m =
      match x.apply m with
      | (.ok a, m') => (f a).apply m'
      | (.error e, m') => (.error e, m') := by
  simp only [apply, ExceptT.run_bind, StateT.run_bind]
  rcases StateT.run (ExceptT.run x) m with ⟨r, m'⟩
  cases r <;> rfl

theorem apply_func (id : FuncId) (m : Module) :
    (func id).apply m =
      match m.funcs.get? id with
      | some f => (.ok f, m)
      | none => (.error (.deadHandle id), m) := by
  rw [func, apply_bind, apply_get]
  cases h : m.funcs.get? id <;> simp [h]

theorem apply_edit (f : Module → Except Failure (α × Module)) (m : Module) :
    (edit f).apply m =
      match f m with
      | .ok (a, m') => (.ok a, m')
      | .error e => (.error e, m) := by
  rw [edit, apply_bind, apply_get]
  cases h : f m with
  | error e => simp [h]
  | ok r =>
      simp only [h]
      rfl

end ModuleM

end KernelIR
