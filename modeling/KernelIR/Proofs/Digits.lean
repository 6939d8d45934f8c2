import Mathlib

/-!
# Runs of digits

Decimal numerals as lists of digits: how long they are in bytes, where a run of them ends, and which
of them stand for one number.
-/

namespace KernelIR

variable {digits text : List Char}

/-- The text does not begin with a digit. -/
def StartsPlain (text : List Char) : Prop := ∀ c ∈ text.head?, c.isDigit = false

instance (text : List Char) : Decidable (StartsPlain text) :=
  decidable_of_iff (text.head?.all (!·.isDigit) = true)
    (by cases text <;> simp [StartsPlain])

theorem StartsPlain.append (h : StartsPlain text) (hne : text ≠ []) (rest : List Char) :
    StartsPlain (text ++ rest) := by
  cases text with
  | nil => exact absurd rfl hne
  | cons c text => exact h

theorem takeWhile_isDigit (hdigits : ∀ c ∈ digits, c.isDigit = true) (h : StartsPlain text) :
    (digits ++ text).takeWhile Char.isDigit = digits := by
  rw [List.takeWhile_append_of_pos hdigits]
  cases text with
  | nil => exact List.append_nil digits
  | cons c text => rw [List.takeWhile_cons_of_neg (by simp [h c rfl]), List.append_nil]

theorem dropWhile_isDigit (hdigits : ∀ c ∈ digits, c.isDigit = true) (h : StartsPlain text) :
    (digits ++ text).dropWhile Char.isDigit = text := by
  rw [List.dropWhile_append_of_pos hdigits]
  cases text with
  | nil => rfl
  | cons c text => exact List.dropWhile_cons_of_neg (by simp [h c rfl])

theorem isDigit_iff {c : Char} : c.isDigit = true ↔ 48 ≤ c.toNat ∧ c.toNat ≤ 57 := by
  simp [Char.isDigit, UInt32.le_iff_toNat_le]

theorem isAlpha_iff {c : Char} : c.isAlpha = true ↔
    65 ≤ c.toNat ∧ c.toNat ≤ 90 ∨ 97 ≤ c.toNat ∧ c.toNat ≤ 122 := by
  simp [Char.isAlpha, Char.isUpper, Char.isLower, UInt32.le_iff_toNat_le]

theorem isAlpha_of_isDigit {c : Char} (h : c.isDigit = true) : c.isAlpha = false := by
  have hc := isDigit_iff.1 h
  rw [Bool.eq_false_iff, Ne, isAlpha_iff]
  omega

theorem digitChar_of_isDigit {c : Char} (h : c.isDigit = true) :
    Nat.digitChar (c.toNat - 48) = c := by
  have hc := isDigit_iff.1 h
  refine Char.toNat_inj.1 ?_
  rw [Nat.toNat_digitChar_of_lt_ten (by omega)]
  omega

/-- Digits take one byte each. -/
theorem utf8Len_of_isDigit (h : ∀ c ∈ digits, c.isDigit = true) :
    String.utf8Len digits = digits.length := by
  induction digits with
  | nil => rfl
  | cons c digits ih =>
      have hc : c.utf8Size = 1 := by
        have hdigit := isDigit_iff.1 (h c List.mem_cons_self)
        rw [Char.utf8Size_eq_one_iff, UInt32.le_iff_toNat_le]
        exact hdigit.2.trans (by decide)
      rw [String.utf8Len_cons, List.length_cons, hc, ih fun c hc => h c (List.mem_cons_of_mem _ hc)]

theorem isDigit_toDigits (n : Nat) : ∀ c ∈ Nat.toDigits 10 n, c.isDigit = true :=
  fun _ hc => Nat.isDigit_of_mem_toDigits (by decide) (by decide) hc

/-- Numbered names of one kind tell their numbers. -/
theorem append_repr_injective (stem : String) :
    Function.Injective fun n : Nat => stem ++ n.repr := by
  intro n k h
  have htext := congrArg String.toList h
  simp only [String.toList_append, List.append_right_inj, String.toList_inj] at htext
  exact Nat.repr_injective htext

/-- Numerals of one number differ in the zeros that they begin with. -/
theorem eq_replicate_append_toDigits (h : ∀ c ∈ digits, c.isDigit = true) (hne : digits ≠ []) :
    ∃ zeros, digits =
      List.replicate zeros '0' ++ Nat.toDigits 10 (Nat.ofDigitChars 10 digits 0) := by
  induction digits using List.reverseRecOn with
  | nil => exact absurd rfl hne
  | append_singleton digits c ih =>
      have hc := h c (by simp)
      have hlt : c.toNat - 48 < 10 := by
        have := isDigit_iff.1 hc
        omega
      have hlast : Nat.toDigits 10 (c.toNat - 48) = [c] := by
        rw [Nat.toDigits_of_lt_base hlt, digitChar_of_isDigit hc]
      have hvalue : Nat.ofDigitChars 10 (digits ++ [c]) 0 =
          10 * Nat.ofDigitChars 10 digits 0 + (c.toNat - 48) := by
        rw [Nat.ofDigitChars_append]
        rfl
      rw [hvalue]
      by_cases hnil : digits = []
      · exact ⟨0, by simp [hnil, hlast]⟩
      obtain ⟨zeros, hzeros⟩ := ih (fun c hc => h c (by simp [hc])) hnil
      rcases Nat.eq_zero_or_pos (Nat.ofDigitChars 10 digits 0) with hzero | hpos
      · -- All digits before the last are zeros.
        refine ⟨zeros + 1, ?_⟩
        rw [hzero, Nat.mul_zero, Nat.zero_add, hlast, List.replicate_succ', hzeros, hzero]
        rfl
      · refine ⟨zeros, ?_⟩
        rw [← Nat.toDigits_append_toDigits (by decide) hpos hlt, hlast, ← List.append_assoc,
          ← hzeros]

end KernelIR
