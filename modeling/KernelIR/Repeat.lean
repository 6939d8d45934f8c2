/-!
# Repetitions

`firstRepeat?` finds the first element of a list that stands there before.
-/

namespace KernelIR

variable {α : Type} [DecidableEq α]

/-- The first element that is in `seen` or stands before itself in the list. -/
def firstRepeatFrom? (seen : List α) : List α → Option α
  | [] => none
  | x :: xs => if x ∈ seen then some x else firstRepeatFrom? (x :: seen) xs

def firstRepeat? (xs : List α) : Option α := firstRepeatFrom? [] xs

theorem firstRepeatFrom?_eq_none_iff {seen xs : List α} :
    firstRepeatFrom? seen xs = none ↔ xs.Nodup ∧ ∀ x ∈ xs, x ∉ seen := by
  induction xs generalizing seen with
  | nil => simp [firstRepeatFrom?]
  | cons x xs ih =>
    simp only [firstRepeatFrom?]
    split
    · simp_all
    · rw [ih]
      grind

theorem firstRepeat?_eq_none_iff {xs : List α} : firstRepeat? xs = none ↔ xs.Nodup := by
  simp [firstRepeat?, firstRepeatFrom?_eq_none_iff]

end KernelIR
