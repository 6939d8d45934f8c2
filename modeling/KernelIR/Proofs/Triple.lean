import KernelIR.ModuleM
import Mathlib

/-!
# Partial correctness of actions

An action that starts where `P` holds fails or ends where `Q` holds of its answer.  The rules follow
the ways in which actions are put together.  Two more say when loops succeed.
-/

namespace KernelIR

theorem map_eq_ok {ε α β : Type} {x : Except ε α} {g : α → β} {b : β} (h : x.map g = .ok b) :
    ∃ a, x = .ok a ∧ g a = b := by
  cases x with
  | error e => cases h
  | ok a => exact ⟨a, rfl, Except.ok.inj h⟩

theorem lift_eq_ok {α : Type} {x : Except IRError α} {a : α} (h : IRError.lift x = .ok a) :
    x = .ok a := by
  cases x with
  | error e => cases h
  | ok b => exact congrArg _ (Except.ok.inj h)

namespace ModuleM

variable {α β : Type}

section Steps

variable {m m' : Module} {id : FuncId} {f : Func}

theorem apply_bind_of_ok {x : ModuleM α} {a : α} (h : x.apply m = (.ok a, m'))
    (g : α → ModuleM β) : (x >>= g).apply m = (g a).apply m' := by
  rw [apply_bind, h]

theorem apply_bind_of_error {x : ModuleM α} {e : Failure} (h : x.apply m = (.error e, m'))
    (g : α → ModuleM β) : (x >>= g).apply m = (.error e, m') := by
  rw [apply_bind, h]

theorem apply_func_of_some (hf : m.funcs.get? id = some f) : (func id).apply m = (.ok f, m) := by
  rw [apply_func, hf]

theorem apply_func_of_none (hf : m.funcs.get? id = none) :
    (func id).apply m = (.error (.deadHandle id), m) := by
  rw [apply_func, hf]

end Steps

section Success

variable {m m' : Module} {a : α}

theorem bind_eq_ok {x : ModuleM β} {f : β → ModuleM α} (h : (x >>= f).apply m = (.ok a, m')) :
    ∃ b m₁, x.apply m = (.ok b, m₁) ∧ (f b).apply m₁ = (.ok a, m') := by
  rw [apply_bind] at h
  cases hx : x.apply m with
  | mk r m₁ =>
      rw [hx] at h
      cases r with
      | error e => cases h
      | ok b => exact ⟨b, m₁, rfl, h⟩

theorem func_eq_ok {id : FuncId} {f : Func} (h : (func id).apply m = (.ok f, m')) :
    m.funcs.get? id = some f ∧ m = m' := by
  rw [apply_func] at h
  cases hf : m.funcs.get? id with
  | none =>
      rw [hf] at h
      cases h
  | some g =>
      rw [hf] at h
      cases h
      exact ⟨rfl, rfl⟩

theorem edit_eq_ok {f : Module → Except Failure (α × Module)}
    (h : (edit f).apply m = (.ok a, m')) : f m = .ok (a, m') := by
  rw [apply_edit] at h
  cases hf : f m with
  | error e =>
      rw [hf] at h
      cases h
  | ok r =>
      rw [hf] at h
      cases h
      rfl

end Success

def Triple (P : Module → Prop) (x : ModuleM α) (Q : α → Module → Prop) : Prop :=
  ∀ m a m', P m → x.apply m = (.ok a, m') → Q a m'

/-- An action that leaves `P` as it is. -/
abbrev Keeps (P : Module → Prop) (x : ModuleM α) : Prop := Triple P x fun _ => P

namespace Triple

variable {P P' : Module → Prop} {Q Q' : α → Module → Prop}

theorem conseq {x : ModuleM α} (h : Triple P x Q) (hP : ∀ m, P' m → P m)
    (hQ : ∀ a m, Q a m → Q' a m) : Triple P' x Q' :=
  fun m a m' hm hx => hQ a m' (h m a m' (hP m hm) hx)

theorem pure {a : α} (h : ∀ m, P m → Q a m) : Triple P (pure a) Q := by
  intro m a' m' hm hx
  rw [apply_pure] at hx
  cases hx
  exact h m hm

theorem throw (e : Failure) : Triple P (throw e) Q := by
  intro m a m' _ hx
  rw [apply_throw] at hx
  cases hx

theorem bind {x : ModuleM α} {f : α → ModuleM β} {Q : β → Module → Prop}
    {R : α → Module → Prop} (hx : Triple P x R) (hf : ∀ a, Triple (R a) (f a) Q) :
    Triple P (x >>= f) Q := by
  intro m b m' hm h
  obtain ⟨a, m₁, hx', hf'⟩ := bind_eq_ok h
  exact hf a m₁ b m' (hx m a m₁ hm hx') hf'

theorem keeps_get : Triple P get fun _ => P := by
  intro m a m' hm hx
  rw [apply_get] at hx
  cases hx
  exact hm

theorem keeps_func (id : FuncId) : Triple P (func id) fun _ => P := by
  intro m f m' hm hx
  obtain ⟨-, rfl⟩ := func_eq_ok hx
  exact hm

/-- What an action reads of the module it may assume. -/
theorem get_bind {f : Module → ModuleM β} {Q : β → Module → Prop}
    (h : ∀ m, P m → Triple (· = m) (f m) Q) : Triple P (get >>= f) Q := by
  intro m b m' hm hx
  rw [apply_bind, apply_get] at hx
  exact h m hm m b m' rfl hx

theorem func_bind {id : FuncId} {f : Func → ModuleM β} {Q : β → Module → Prop}
    (h : ∀ m g, P m → m.funcs.get? id = some g → Triple (· = m) (f g) Q) :
    Triple P (func id >>= f) Q := by
  intro m b m' hm hx
  obtain ⟨g, m₁, hfunc, hx⟩ := bind_eq_ok hx
  obtain ⟨hg, rfl⟩ := func_eq_ok hfunc
  exact h m g hm hg m b m' rfl hx

theorem change {f : Module → α × Module} (h : ∀ m, P m → Q (f m).1 (f m).2) :
    Triple P (change f) Q := by
  intro m a m' hm hx
  rw [apply_change] at hx
  cases hx
  exact h m hm

theorem set {m' : Module} {Q : PUnit → Module → Prop} (h : ∀ m, P m → Q ⟨⟩ m') :
    Triple P (set m') Q := by
  intro m a m'' hm hx
  cases hx
  exact h m hm

theorem edit {f : Module → Except Failure (α × Module)}
    (h : ∀ m a m', P m → f m = .ok (a, m') → Q a m') : Triple P (edit f) Q :=
  fun m a m' hm hx => h m a m' hm (edit_eq_ok hx)

/-- A loop is judged by what holds before each of its rounds, given what is left of the list. -/
theorem forM {I : List β → Module → Prop} {f : β → ModuleM PUnit}
    (h : ∀ x xs, Triple (I (x :: xs)) (f x) fun _ => I xs) (xs : List β) :
    Triple (I xs) (xs.forM f) fun _ => I [] := by
  induction xs with
  | nil => exact pure fun _ hm => hm
  | cons x xs ih => exact (h x xs).bind fun _ => ih

theorem foldlM {I : List β → α → Module → Prop} {f : α → β → ModuleM α}
    (h : ∀ x xs a, Triple (I (x :: xs) a) (f a x) fun a' => I xs a') (xs : List β) (a : α) :
    Triple (I xs a) (xs.foldlM f a) fun a' => I [] a' := by
  induction xs generalizing a with
  | nil => exact pure fun _ hm => hm
  | cons x xs ih =>
      rw [List.foldlM_cons]
      exact (h x xs a).bind fun a' => ih a'

theorem sumOver {I : List β → Module → Prop} {f : β → ModuleM Nat}
    (h : ∀ x xs, Triple (I (x :: xs)) (f x) fun _ => I xs) (xs : List β) :
    Triple (I xs) (sumOver xs f) fun _ => I [] :=
  foldlM (I := fun xs _ => I xs)
    (fun x xs _ => (h x xs).bind fun _ => pure fun _ hm => hm) xs 0

end Triple

section Loops

variable {I : List β → Module → Prop} {m : Module} {xs : List β}

/-- A loop succeeds exactly if each round may, given what the rounds before it leave. -/
theorem forM_ok_iff {f : β → ModuleM PUnit} {good : β → Prop}
    (hgood : ∀ x xs m, I (x :: xs) m → good x → ∃ m', (f x).apply m = (.ok ⟨⟩, m') ∧ I xs m')
    (hbad : ∀ x xs m m', I (x :: xs) m → (f x).apply m = (.ok ⟨⟩, m') → good x) (hm : I xs m) :
    (∃ m', (xs.forM f).apply m = (.ok ⟨⟩, m')) ↔ ∀ x ∈ xs, good x := by
  induction xs generalizing m with
  | nil => exact ⟨fun _ _ hx => absurd hx List.not_mem_nil, fun _ => ⟨m, rfl⟩⟩
  | cons x xs ih =>
      rw [List.forall_mem_cons]
      constructor
      · rintro ⟨m', h⟩
        obtain ⟨_, m₁, hx, hxs⟩ := bind_eq_ok h
        have hx' := hbad x xs m m₁ hm hx
        obtain ⟨m₂, hx₂, hm₂⟩ := hgood x xs m hm hx'
        cases hx.symm.trans hx₂
        exact ⟨hx', (ih hm₂).1 ⟨m', hxs⟩⟩
      · rintro ⟨hx, hxs⟩
        obtain ⟨m₁, hx, hm₁⟩ := hgood x xs m hm hx
        obtain ⟨m', h⟩ := (ih hm₁).2 hxs
        refine ⟨m', ?_⟩
        change (f x >>= fun _ => xs.forM f).apply m = _
        rw [apply_bind, hx]
        exact h

/-- A loop succeeds if each round does, given what the rounds before it leave. -/
theorem forM_ok {f : β → ModuleM PUnit}
    (hf : ∀ x xs m, I (x :: xs) m → ∃ m', (f x).apply m = (.ok ⟨⟩, m') ∧ I xs m') (hm : I xs m) :
    ∃ m', (xs.forM f).apply m = (.ok ⟨⟩, m') ∧ I [] m' := by
  induction xs generalizing m with
  | nil => exact ⟨m, rfl, hm⟩
  | cons x xs ih =>
      obtain ⟨m₁, hx, hm₁⟩ := hf x xs m hm
      obtain ⟨m', h, hm'⟩ := ih hm₁
      exact ⟨m', (apply_bind_of_ok hx fun _ => xs.forM f).trans h, hm'⟩

/-- Each round of a sum succeeds, given what the rounds before it leave and have summed up. -/
theorem sumOver_ok {I : List β → Nat → Module → Prop} {f : β → ModuleM Nat}
    (hf : ∀ x xs k m, I (x :: xs) k m →
      ∃ n m', (f x).apply m = (.ok n, m') ∧ I xs (k + n) m') (hm : I xs 0 m) :
    ∃ n m', (sumOver xs f).apply m = (.ok n, m') ∧ I [] n m' := by
  suffices h : ∀ k m, I xs k m → ∃ n m',
      (xs.foldlM (fun n b => do return n + (← f b)) k : ModuleM Nat).apply m = (.ok n, m') ∧
        I [] n m' from h 0 m hm
  clear hm
  induction xs with
  | nil => exact fun k m hm => ⟨k, m, rfl, hm⟩
  | cons x xs ih =>
      intro k m hm
      obtain ⟨n, m₁, hx, hm₁⟩ := hf x xs k m hm
      obtain ⟨n', m', h, hm'⟩ := ih (k + n) m₁ hm₁
      refine ⟨n', m', ?_, hm'⟩
      rw [List.foldlM_cons, apply_bind, apply_bind, hx]
      exact h

end Loops

end ModuleM

end KernelIR
