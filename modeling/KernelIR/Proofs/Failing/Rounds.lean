import KernelIR.Proofs.Outcome
import Mathlib

/-!
# Rounds and potentials

An action is a sequence of rounds, each of which may change the module.  When every change lowers a
potential, none of them takes back another: an action that ends with the module that it began with
has changed nothing in between.  Then its rounds can be read off that module alone.
-/

namespace KernelIR

/-- How rounds end on a module that none of them changes; there is no such end if one does. -/
def Module.idleEnd? (m : Module) : List (ModuleM Unit) → Option (Except Failure Unit)
  | [] => some (.ok ())
  | x :: xs =>
    if (x.apply m).2 = m then
      match (x.apply m).1 with
      | .ok _ => m.idleEnd? xs
      | .error e => some (.error e)
    else none

namespace Module

variable {m : Module} {xs : List (ModuleM Unit)}

theorem idleEnd?_append_of_ok (h : m.idleEnd? xs = some (.ok ())) (ys : List (ModuleM Unit)) :
    m.idleEnd? (xs ++ ys) = m.idleEnd? ys := by
  induction xs with
  | nil => rfl
  | cons x xs ih =>
      rw [idleEnd?] at h
      rw [List.cons_append, idleEnd?]
      split_ifs at h ⊢
      cases hx : (x.apply m).1 with
      | ok _ =>
          rw [hx] at h
          exact ih h
      | error e =>
          rw [hx] at h
          cases h

theorem idleEnd?_append_of_ne (h : m.idleEnd? xs ≠ some (.ok ())) (ys : List (ModuleM Unit)) :
    m.idleEnd? (xs ++ ys) = m.idleEnd? xs := by
  induction xs with
  | nil => exact absurd rfl h
  | cons x xs ih =>
      rw [idleEnd?] at h
      rw [List.cons_append, idleEnd?, idleEnd?]
      split_ifs at h ⊢
      · cases hx : (x.apply m).1 with
        | ok _ =>
            rw [hx] at h
            exact ih h
        | error e => rfl
      · rfl

end Module

namespace ModuleM

variable {α β γ : Type}

/-- An action without its answer. -/
def effect (x : ModuleM α) : ModuleM Unit := do
  let _ ← x

theorem apply_effect (x : ModuleM α) (m : Module) :
    (effect x).apply m = ((x.apply m).1.map fun _ => (), (x.apply m).2) := by
  rw [effect, apply_bind]
  rcases x.apply m with ⟨_ | a, m'⟩ <;> rfl

theorem effect_eq (x : ModuleM Unit) : effect x = x := bind_pure x

section Potential

variable [Preorder γ] (Φ : Module → γ)

/-- On `m` the action changes nothing or lowers the potential.  If it fails, the potential has not
risen at least. -/
abbrev Lowers (m : Module) (x : ModuleM α) : Prop :=
  Outcome (· = m) x (fun _ m' => m' = m ∨ Φ m' < Φ m) fun _ m' => Φ m' ≤ Φ m

variable {Φ} {m s : Module}

theorem eq_or_lt_trans {m₁ m₂ : Module} (h₁ : m₁ = m ∨ Φ m₁ < Φ m)
    (h₂ : m₂ = m₁ ∨ Φ m₂ < Φ m₁) : m₂ = m ∨ Φ m₂ < Φ m := by
  rcases h₂ with rfl | hlt
  · exact h₁
  · rcases h₁ with rfl | hlt'
    exacts [Or.inr hlt, Or.inr (hlt.trans hlt')]

namespace Lowers

theorem pure (a : α) : Lowers Φ m (pure a) := Outcome.pure fun _ h => Or.inl h

theorem throw (e : Failure) : Lowers Φ m (throw e : ModuleM α) :=
  Outcome.throw fun _ h => (congrArg Φ h).le

theorem bind {x : ModuleM α} {f : α → ModuleM β} (hx : Lowers Φ m x)
    (hf : ∀ a m', x.apply m = (.ok a, m') → Lowers Φ m' (f a)) : Lowers Φ m (x >>= f) := by
  rintro m₀ rfl
  rw [apply_bind]
  cases h : x.apply m₀ with
  | mk r m₁ =>
      cases r with
      | error e => exact hx.of_error rfl h
      | ok a =>
          have h₁ := hx.of_ok rfl h
          have h₁' : Φ m₁ ≤ Φ m₀ := h₁.elim (fun heq => (congrArg Φ heq).le) le_of_lt
          exact ((hf a m₁ h).conseq (fun _ hm => hm) fun _ _ => eq_or_lt_trans h₁).weaken
            (fun _ _ hle => hle.trans h₁') m₁ rfl

theorem get_bind {f : Module → ModuleM β} (h : Lowers Φ m (f m)) : Lowers Φ m (get >>= f) := by
  refine bind (fun m' hm' => Or.inl hm') fun a m' hget => ?_
  cases hget
  exact h

theorem func_bind {id : FuncId} {f : Func → ModuleM β}
    (h : ∀ g, m.funcs.get? id = some g → Lowers Φ m (f g)) : Lowers Φ m (func id >>= f) := by
  rintro m₀ rfl
  rw [apply_bind, apply_func]
  cases hg : m₀.funcs.get? id with
  | none => exact le_rfl
  | some g => exact h g hg m₀ rfl

theorem change {f : Module → α × Module} (h : (f m).2 = m ∨ Φ (f m).2 < Φ m) :
    Lowers Φ m (change f) := by
  rintro m₀ rfl
  exact h

theorem set {m' : Module} (h : m' = m ∨ Φ m' < Φ m) : Lowers Φ m (set m') := by
  rintro m₀ rfl
  exact h

theorem edit {f : Module → Except Failure (α × Module)}
    (h : ∀ a m', f m = .ok (a, m') → m' = m ∨ Φ m' < Φ m) : Lowers Φ m (edit f) := by
  refine Outcome.edit (fun m₀ a m' hm₀ hok => ?_) fun m₀ e hm₀ _ => (congrArg Φ hm₀).le
  subst hm₀
  exact h a m' hok

theorem foldlM {f : α → β → ModuleM α} (h : ∀ a b m, Lowers Φ m (f a b)) (xs : List β) (a : α) :
    Lowers Φ m (xs.foldlM f a) := by
  induction xs generalizing a m with
  | nil => exact pure a
  | cons x xs ih =>
      rw [List.foldlM_cons]
      exact (h a x m).bind fun a' m' _ => ih a'

theorem forM {f : β → ModuleM PUnit} (h : ∀ b m, Lowers Φ m (f b)) (xs : List β) :
    Lowers Φ m (xs.forM f) := by
  induction xs generalizing m with
  | nil => exact pure _
  | cons x xs ih => exact (h x m).bind fun _ m' _ => ih

theorem sumOver {f : β → ModuleM Nat} (h : ∀ b m, Lowers Φ m (f b)) (xs : List β) :
    Lowers Φ m (sumOver xs f) :=
  foldlM (fun _ b m => (h b m).bind fun _ _ _ => pure _) xs 0

end Lowers

variable (Φ)

/-- The rounds tell how the action ends on `s`, unless it changes `s` on the way. -/
def Follows (s : Module) (x : ModuleM α) (rounds : List (ModuleM Unit)) : Prop :=
  Outcome (· = s) x
    (fun _ m => m = s ∧ s.idleEnd? rounds = some (.ok ()) ∨
      Φ m < Φ s ∧ s.idleEnd? rounds = none)
    fun e m => m = s ∧ s.idleEnd? rounds = some (.error e) ∨
      m ≠ s ∧ Φ m ≤ Φ s ∧ s.idleEnd? rounds = none

variable {Φ}

namespace Follows

variable {x : ModuleM α} {f : α → ModuleM β} {rounds later : List (ModuleM Unit)}

/-- An action is a round of its own. -/
theorem single (h : Lowers Φ s x) : Follows Φ s x [effect x] := by
  rintro m₀ rfl
  cases hx : x.apply m₀ with
  | mk r m₁ =>
      have hend : m₀.idleEnd? [effect x] =
          if m₁ = m₀ then some (r.map fun _ => ()) else none := by
        simp only [Module.idleEnd?, apply_effect, hx]
        split_ifs
        · cases r <;> rfl
        · rfl
      cases r with
      | ok a =>
          rcases h.of_ok rfl hx with rfl | hlt
          · exact Or.inl ⟨rfl, by rw [hend, if_pos rfl]; rfl⟩
          · have hne : m₁ ≠ m₀ := fun heq => hlt.ne (congrArg Φ heq)
            exact Or.inr ⟨hlt, by rw [hend, if_neg hne]⟩
      | error e =>
          by_cases hne : m₁ = m₀
          · exact Or.inl ⟨hne, by rw [hend, if_pos hne]; rfl⟩
          · exact Or.inr ⟨hne, h.of_error rfl hx, by rw [hend, if_neg hne]⟩

theorem round {x : ModuleM Unit} (h : Lowers Φ s x) : Follows Φ s x [x] := by
  have hsingle := single h
  rwa [effect_eq] at hsingle

theorem lowers (h : Follows Φ s x rounds) : Lowers Φ s x := by
  rintro m₀ rfl
  cases hx : x.apply m₀ with
  | mk r m₁ =>
      cases r with
      | error e =>
          rcases h.of_error rfl hx with ⟨rfl, -⟩ | ⟨-, hle, -⟩
          exacts [le_rfl, hle]
      | ok a => exact (h.of_ok rfl hx).imp And.left And.left

theorem pure (a : α) : Follows Φ s (pure a) [] := Outcome.pure fun _ h => Or.inl ⟨h, rfl⟩

/-- What comes later matters only if the first action has changed nothing. -/
theorem bind_idle (hx : Follows Φ s x rounds) (hlowers : ∀ a m, Lowers Φ m (f a))
    (hidle : ∀ a, x.apply s = (.ok a, s) → Follows Φ s (f a) later) :
    Follows Φ s (x >>= f) (rounds ++ later) := by
  rintro m₀ rfl
  rw [apply_bind]
  cases h : x.apply m₀ with
  | mk r m₁ =>
      cases r with
      | error e =>
          have hend := hx.of_error rfl h
          rwa [← Module.idleEnd?_append_of_ne (by rcases hend with h | h <;> simp [h])] at hend
      | ok a =>
          rcases hx.of_ok rfl h with ⟨rfl, hend⟩ | ⟨hlt, hend⟩
          · have hthen := hidle a h m₁ rfl
            rwa [← Module.idleEnd?_append_of_ok hend] at hthen
          · rw [← Module.idleEnd?_append_of_ne (by simp [hend])] at hend
            refine ((hlowers a m₁).conseq (fun _ hm => hm) fun _ m₂ h₂ => ?_).weaken
              (fun _ m₂ hle => ?_) m₁ rfl
            · exact Or.inr ⟨h₂.elim (fun heq => heq ▸ hlt) hlt.trans', hend⟩
            · have hlt' := hle.trans_lt hlt
              exact Or.inr ⟨fun heq => hlt'.ne (congrArg Φ heq), hlt'.le, hend⟩

theorem bind {l : Module → List (ModuleM Unit)} (hx : Follows Φ s x rounds)
    (hf : ∀ a m, Follows Φ m (f a) (l m)) : Follows Φ s (x >>= f) (rounds ++ l s) :=
  hx.bind_idle (fun a m => (hf a m).lowers) fun a _ => hf a s

theorem get_bind {f : Module → ModuleM β} (h : Follows Φ s (f s) rounds) :
    Follows Φ s (get >>= f) rounds :=
  Outcome.get_bind fun _ heq => heq ▸ h

theorem foldlM {f : α → β → ModuleM α} {r : Module → β → List (ModuleM Unit)}
    (h : ∀ a b m, Follows Φ m (f a b) (r m b)) (xs : List β) (a : α) :
    Follows Φ s (xs.foldlM f a) (xs.flatMap (r s)) := by
  induction xs generalizing a s with
  | nil => exact pure a
  | cons x xs ih =>
      rw [List.foldlM_cons]
      exact (h a x s).bind (l := fun m => xs.flatMap (r m)) fun a' _ => ih a'

theorem forM {f : β → ModuleM PUnit} {r : Module → β → List (ModuleM Unit)}
    (h : ∀ b m, Follows Φ m (f b) (r m b)) (xs : List β) :
    Follows Φ s (xs.forM f) (xs.flatMap (r s)) := by
  induction xs generalizing s with
  | nil => exact pure _
  | cons x xs ih => exact (h x s).bind (l := fun m => xs.flatMap (r m)) fun _ _ => ih

/-- A loop of rounds. -/
theorem forM_round {f : β → ModuleM Unit} (h : ∀ b m, Lowers Φ m (f b)) (xs : List β) :
    Follows Φ s (xs.forM f) (xs.map f) := by
  rw [List.map_eq_flatMap]
  exact forM (r := fun _ b => [f b]) (fun b m => round (h b m)) xs

theorem sumOver {f : β → ModuleM Nat} {r : Module → β → List (ModuleM Unit)}
    (h : ∀ b m, Follows Φ m (f b) (r m b)) (xs : List β) :
    Follows Φ s (sumOver xs f) (xs.flatMap (r s)) := by
  refine foldlM (fun k b m => ?_) xs 0
  rw [← List.append_nil (r m b)]
  exact (h b m).bind (l := fun _ => []) fun _ _ => pure _

end Follows

variable (Φ)

/-- A failure on `s` leaves `s` as it is exactly if the rounds on `s` end in it.  The potential has
not risen then. -/
def FailsBy (s : Module) (x : ModuleM α) (rounds : List (ModuleM Unit)) : Prop :=
  ∀ e m, x.apply s = (.error e, m) →
    (m = s ↔ s.idleEnd? rounds = some (.error e)) ∧ Φ m ≤ Φ s

variable {Φ} {x : ModuleM α} {f : α → ModuleM β} {rounds : List (ModuleM Unit)}

theorem Follows.failsBy (h : Follows Φ s x rounds) : FailsBy Φ s x rounds := by
  intro e m hx
  refine ⟨?_, h.lowers.of_error rfl hx⟩
  rcases h.of_error rfl hx with ⟨heq, hend⟩ | ⟨hne, -, hend⟩
  · exact iff_of_true heq hend
  · exact iff_of_false hne (by simp [hend])

namespace FailsBy

theorem pure (a : α) : FailsBy Φ s (pure a) [] := (Follows.pure a).failsBy

/-- An edit changes nothing when it fails. -/
theorem edit (f : Module → Except Failure (Unit × Module)) :
    FailsBy Φ s (edit f) [edit f] := by
  intro e m h
  rw [apply_edit] at h
  cases hf : f s with
  | ok r =>
      rw [hf] at h
      cases h
  | error e' =>
      rw [hf] at h
      cases h
      refine ⟨iff_of_true rfl ?_, le_rfl⟩
      simp only [Module.idleEnd?, apply_edit, hf, if_true]

theorem bind {l : Module → List (ModuleM Unit)} (hx : Follows Φ s x rounds)
    (hf : ∀ a m, FailsBy Φ m (f a) (l m)) : FailsBy Φ s (x >>= f) (rounds ++ l s) := by
  intro e m h
  rw [apply_bind] at h
  cases hx' : x.apply s with
  | mk r m₁ =>
      rw [hx'] at h
      cases r with
      | error e' =>
          cases h
          have hend := hx.of_error rfl hx'
          rw [Module.idleEnd?_append_of_ne (by rcases hend with h | h <;> simp [h])]
          exact hx.failsBy e m hx'
      | ok a =>
          rcases hx.of_ok rfl hx' with ⟨rfl, hend⟩ | ⟨hlt, hend⟩
          · rw [Module.idleEnd?_append_of_ok hend]
            exact hf a m₁ e m h
          · have hlt' := (hf a m₁ e m h).2.trans_lt hlt
            rw [Module.idleEnd?_append_of_ne (by simp [hend]), hend]
            exact ⟨iff_of_false (fun heq => hlt'.ne (congrArg Φ heq)) (by simp), hlt'.le⟩

/-- What cannot fail any more does not matter. -/
theorem bind_of_ok (hx : FailsBy Φ s x rounds)
    (hf : ∀ a m, ((f a).apply m).1.isOk = true) : FailsBy Φ s (x >>= f) rounds := by
  intro e m h
  rw [apply_bind] at h
  cases hx' : x.apply s with
  | mk r m₁ =>
      rw [hx'] at h
      cases r with
      | error e' =>
          cases h
          exact hx e m hx'
      | ok a =>
          have hok := hf a m₁
          rw [show ((f a).apply m₁).1 = .error e from congrArg Prod.fst h] at hok
          cases hok

theorem get_bind {f : Module → ModuleM β} (h : FailsBy Φ s (f s) rounds) :
    FailsBy Φ s (get >>= f) rounds := by
  intro e m hx
  rw [apply_bind, apply_get] at hx
  exact h e m hx

theorem func_bind {id : FuncId} {g : Func} {f : Func → ModuleM β} (hg : s.funcs.get? id = some g)
    (h : FailsBy Φ s (f g) rounds) : FailsBy Φ s (func id >>= f) rounds := by
  intro e m hx
  rw [apply_bind, apply_func, hg] at hx
  exact h e m hx

end FailsBy

end Potential

end ModuleM

end KernelIR
