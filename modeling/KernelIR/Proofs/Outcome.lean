import KernelIR.Proofs.Triple
import Mathlib

/-!
# Outcomes of actions

A triple says what holds when an action succeeds.  Here it says as well what holds when the action
fails: of the failure, and of the module that it leaves.  The rules are those of triples.
-/

namespace KernelIR

namespace ModuleM

variable {α β : Type}

/-- Where `P` holds, an action ends where `Q` holds of its answer, or fails where `E` holds of its
failure. -/
def Outcome (P : Module → Prop) (x : ModuleM α) (Q : α → Module → Prop)
    (E : Failure → Module → Prop) : Prop :=
  ∀ m, P m →
    match x.apply m with
    | (.ok a, m') => Q a m'
    | (.error e, m') => E e m'

namespace Outcome

variable {P S : Module → Prop} {Q T : α → Module → Prop} {E : Failure → Module → Prop}

theorem of_ok {x : ModuleM α} {m m' : Module} {a : α} (h : Outcome P x Q E) (hm : P m)
    (hx : x.apply m = (.ok a, m')) : Q a m' := by
  have := h m hm
  rwa [hx] at this

theorem of_error {x : ModuleM α} {m m' : Module} {e : Failure} (h : Outcome P x Q E) (hm : P m)
    (hx : x.apply m = (.error e, m')) : E e m' := by
  have := h m hm
  rwa [hx] at this

theorem conseq {x : ModuleM α} (h : Outcome P x Q E) (hP : ∀ m, S m → P m)
    (hQ : ∀ a m, Q a m → T a m) : Outcome S x T E := by
  intro m hm
  have hx := h m (hP m hm)
  split at hx
  · exact hQ _ _ hx
  · exact hx

theorem weaken {x : ModuleM α} {E' : Failure → Module → Prop} (h : Outcome P x Q E)
    (hE : ∀ e m, E e m → E' e m) : Outcome P x Q E' := by
  intro m hm
  have hx := h m hm
  split at hx
  · exact hx
  · exact hE _ _ hx

theorem pure {a : α} (h : ∀ m, P m → Q a m) : Outcome P (pure a) Q E := fun m hm => h m hm

theorem throw {e : Failure} (h : ∀ m, P m → E e m) : Outcome P (throw e) Q E :=
  fun m hm => h m hm

theorem bind {x : ModuleM α} {f : α → ModuleM β} {Q : β → Module → Prop}
    {R : α → Module → Prop} (hx : Outcome P x R E) (hf : ∀ a, Outcome (R a) (f a) Q E) :
    Outcome P (x >>= f) Q E := by
  intro m hm
  rw [apply_bind]
  cases h : x.apply m with
  | mk r m₁ =>
      cases r with
      | error e => exact hx.of_error hm h
      | ok a => exact hf a m₁ (hx.of_ok hm h)

theorem keeps_get : Outcome P get (fun _ => P) E := fun _ hm => hm

theorem get_bind {f : Module → ModuleM β} {Q : β → Module → Prop}
    (h : ∀ m, P m → Outcome (· = m) (f m) Q E) : Outcome P (get >>= f) Q E := by
  intro m hm
  rw [apply_bind, apply_get]
  exact h m hm m rfl

/-- A function is read where its handle is live. -/
theorem func_bind {id : FuncId} {f : Func → ModuleM β} {Q : β → Module → Prop}
    (hlive : ∀ m, P m → m.funcs.contains id = true)
    (h : ∀ m g, P m → m.funcs.get? id = some g → Outcome (· = m) (f g) Q E) :
    Outcome P (func id >>= f) Q E := by
  intro m hm
  obtain ⟨g, hg⟩ := Option.isSome_iff_exists.1 (hlive m hm)
  rw [apply_bind, apply_func, hg]
  exact h m g hm hg m rfl

theorem change {f : Module → α × Module} (h : ∀ m, P m → Q (f m).1 (f m).2) :
    Outcome P (change f) Q E := fun m hm => h m hm

theorem set {m' : Module} {Q : PUnit → Module → Prop} (h : ∀ m, P m → Q ⟨⟩ m') :
    Outcome P (set m') Q E := fun m hm => h m hm

theorem edit {f : Module → Except Failure (α × Module)}
    (hok : ∀ m a m', P m → f m = .ok (a, m') → Q a m')
    (herror : ∀ m e, P m → f m = .error e → E e m) : Outcome P (edit f) Q E := by
  intro m hm
  rw [apply_edit]
  cases h : f m with
  | error e => exact herror m e hm h
  | ok r => exact hok m r.1 r.2 hm h

/-- A loop is judged by what holds before each of its rounds, given what is left of the list. -/
theorem forM {I : List β → Module → Prop} {f : β → ModuleM PUnit}
    (h : ∀ x xs, Outcome (I (x :: xs)) (f x) (fun _ => I xs) E) (xs : List β) :
    Outcome (I xs) (xs.forM f) (fun _ => I []) E := by
  induction xs with
  | nil => exact pure fun _ hm => hm
  | cons x xs ih => exact (h x xs).bind fun _ => ih

theorem foldlM {I : List β → α → Module → Prop} {f : α → β → ModuleM α}
    (h : ∀ x xs a, Outcome (I (x :: xs) a) (f a x) (fun a' => I xs a') E) (xs : List β) (a : α) :
    Outcome (I xs a) (xs.foldlM f a) (fun a' => I [] a') E := by
  induction xs generalizing a with
  | nil => exact pure fun _ hm => hm
  | cons x xs ih =>
      rw [List.foldlM_cons]
      exact (h x xs a).bind fun a' => ih a'

/-- What is summed up so far may be spoken of as well. -/
theorem sumOver {I : List β → Nat → Module → Prop} {f : β → ModuleM Nat}
    (h : ∀ x xs k, Outcome (I (x :: xs) k) (f x) (fun n => I xs (k + n)) E) (xs : List β) :
    Outcome (I xs 0) (sumOver xs f) (I []) E :=
  foldlM (fun x xs k => (h x xs k).bind fun _ => pure fun _ hm => hm) xs 0

end Outcome

section Congr

variable {I : List β → Module → Prop} {m : Module}

end Congr

end ModuleM

end KernelIR
