import KernelIR.Proofs.Digits
import KernelIR.WorkGroupSize
import Mathlib

/-!
# Integer literals

What may be written for an integer among template arguments: zeros, its decimal digits and a suffix
that tells its type, with blanks on both sides.  These are the texts that are read as the integer.
-/

namespace KernelIR

section Blanks

variable {left core right : List Char}

theorem isBlank_of_isAlphanum {c : Char} (h : c.isAlphanum = true) : isBlank c = false := by
  have hrange : 48 ≤ c.toNat ∧ c.toNat ≤ 122 := by
    rw [Char.isAlphanum, Bool.or_eq_true, isAlpha_iff, isDigit_iff] at h
    omega
  simp only [isBlank, Bool.or_eq_false_iff, Bool.and_eq_false_iff, decide_eq_false_iff_not,
    beq_eq_false_iff_ne]
  omega

/-- What is trimmed are blanks. -/
theorem exists_trimBlanks (text : List Char) : ∃ left right,
    text = left ++ trimBlanks text ++ right ∧
      (∀ c ∈ left, isBlank c = true) ∧ ∀ c ∈ right, isBlank c = true := by
  let rest := (text.dropWhile isBlank).reverse
  refine ⟨text.takeWhile isBlank, (rest.takeWhile isBlank).reverse, ?_,
    fun c hc => List.mem_takeWhile_imp hc,
    fun c hc => List.mem_takeWhile_imp (List.mem_reverse.1 hc)⟩
  rw [trimBlanks, List.append_assoc, ← List.reverse_append, List.takeWhile_append_dropWhile,
    List.reverse_reverse, List.takeWhile_append_dropWhile]

theorem dropWhile_isBlank (hleft : ∀ c ∈ left, isBlank c = true)
    (hcore : ∀ c ∈ core, isBlank c = false) (hne : core ≠ []) :
    (left ++ core ++ right).dropWhile isBlank = core ++ right := by
  cases core with
  | nil => exact absurd rfl hne
  | cons c core =>
      rw [List.append_assoc, List.dropWhile_append_of_pos hleft, List.cons_append,
        List.dropWhile_cons_of_neg (by simp [hcore c List.mem_cons_self])]

theorem trimBlanks_append (hleft : ∀ c ∈ left, isBlank c = true)
    (hcore : ∀ c ∈ core, isBlank c = false) (hne : core ≠ [])
    (hright : ∀ c ∈ right, isBlank c = true) : trimBlanks (left ++ core ++ right) = core := by
  have hback : (right.reverse ++ core.reverse ++ []).dropWhile isBlank = core.reverse ++ [] :=
    dropWhile_isBlank (fun c hc => hright c (List.mem_reverse.1 hc))
      (fun c hc => hcore c (List.mem_reverse.1 hc)) (mt List.reverse_eq_nil_iff.1 hne)
  rw [List.append_nil, List.append_nil] at hback
  rw [trimBlanks, dropWhile_isBlank hleft hcore hne, List.reverse_append, hback,
    List.reverse_reverse]

end Blanks

namespace WorkGroupSize

/-- The suffixes of integer literals, in lower case; that of an `int` is empty. -/
def suffixes : List (List Char) :=
  [[], ['u'], ['l'], ['u', 'l'], ['l', 'l'], ['u', 'l', 'l']]

/-- An integer below 2^32 as it may be written. -/
structure Literal where
  left : List Char
  zeros : Nat
  value : Nat
  suffix : List Char
  right : List Char
  left_blank : ∀ c ∈ left, isBlank c = true
  value_lt : value < 2 ^ 32
  suffix_mem : suffix.map Char.toLower ∈ suffixes
  right_blank : ∀ c ∈ right, isBlank c = true

namespace Literal

def digits (l : Literal) : List Char := List.replicate l.zeros '0' ++ Nat.toDigits 10 l.value

def text (l : Literal) : List Char := l.left ++ (l.digits ++ l.suffix) ++ l.right

theorem isDigit_digits (l : Literal) : ∀ c ∈ l.digits, c.isDigit = true := by
  intro c hc
  rcases List.mem_append.1 hc with hc | hc
  · rw [List.eq_of_mem_replicate hc]
    rfl
  · exact isDigit_toDigits l.value c hc

theorem digits_ne_nil (l : Literal) : l.digits ≠ [] :=
  List.append_ne_nil_of_right_ne_nil _ Nat.toDigits_ne_nil

theorem ofDigitChars_digits (l : Literal) : Nat.ofDigitChars 10 l.digits 0 = l.value := by
  rw [digits, Nat.ofDigitChars_append, Nat.ofDigitChars_replicate_zero, Nat.mul_zero,
    Nat.ofDigitChars_ten_toDigits]

theorem isAlpha_suffix (l : Literal) : ∀ c ∈ l.suffix, c.isAlpha = true := by
  intro c hc
  have hletters : ∀ s ∈ suffixes, s.all Char.isAlpha = true := by decide
  have hlower := List.all_eq_true.1 (hletters _ l.suffix_mem) _ (List.mem_map_of_mem hc)
  rwa [Char.isAlpha_toLower_eq_isAlpha] at hlower

theorem isAlphanum_core (l : Literal) : ∀ c ∈ l.digits ++ l.suffix, c.isAlphanum = true := by
  intro c hc
  rw [Char.isAlphanum, Bool.or_eq_true]
  exact (List.mem_append.1 hc).symm.imp (l.isAlpha_suffix c) (l.isDigit_digits c)

theorem trimBlanks_text (l : Literal) : trimBlanks l.text = l.digits ++ l.suffix :=
  trimBlanks_append l.left_blank (fun c hc => isBlank_of_isAlphanum (l.isAlphanum_core c hc))
    (List.append_ne_nil_of_left_ne_nil l.digits_ne_nil _) l.right_blank

end Literal

section Endings

variable {ending text digits suffix : List Char} {arg : List Char} {value : Nat}

theorem beforeEnding?_eq_some_iff {before : List Char} : beforeEnding? ending text = some before ↔
    ∃ suffix, text = before ++ suffix ∧ suffix.map Char.toLower = ending := by
  rw [beforeEnding?]
  constructor
  · intro h
    split_ifs at h with hending
    cases h
    have hdrop := List.suffix_iff_eq_drop.1 (List.isSuffixOf_iff_suffix.1 hending)
    rw [List.length_map, ← List.map_drop] at hdrop
    exact ⟨_, (List.take_append_drop _ _).symm, hdrop.symm⟩
  · rintro ⟨suffix, rfl, rfl⟩
    rw [if_pos (List.isSuffixOf_iff_suffix.2 ⟨_, (List.map_append ..).symm⟩), List.length_append,
      List.length_map, Nat.add_sub_cancel, List.take_left]

theorem map_toLower_of_isDigit (h : ∀ c ∈ digits, c.isDigit = true) :
    digits.map Char.toLower = digits := by
  have hlower : ∀ c ∈ digits, c.toLower = id c := fun c hc => by
    refine Char.toLower_eq_of_not_isUpper fun hupper => ?_
    have halpha := isAlpha_of_isDigit (h c hc)
    rw [Char.isAlpha, hupper] at halpha
    cases halpha
  rw [List.map_congr_left hlower, List.map_id]

/-- An ending in letters that stands behind digits and a suffix is an ending of the suffix. -/
theorem suffix_of_suffix_append (hdigits : ∀ c ∈ digits, c.isDigit = true)
    (hending : ∀ c ∈ ending, c.isAlpha = true) (h : ending <:+ digits ++ suffix) :
    ending <:+ suffix := by
  rcases List.suffix_or_suffix_of_suffix h (List.suffix_append digits suffix) with h' | ⟨x, rfl⟩
  · exact h'
  · -- The letters before the suffix are among the digits, so that there are none.
    obtain ⟨y, hy⟩ := h
    rw [← List.append_assoc] at hy
    obtain rfl := List.append_cancel_right hy
    cases x with
    | nil => exact List.suffix_refl _
    | cons c x =>
        have halpha := hending c (by simp)
        rw [isAlpha_of_isDigit (hdigits c (by simp))] at halpha
        cases halpha

theorem beforeEnding?_eq_none (hdigits : ∀ c ∈ digits, c.isDigit = true)
    (hending : ∀ c ∈ ending, c.isAlpha = true) (h : ¬ending <:+ suffix.map Char.toLower) :
    beforeEnding? ending (digits ++ suffix) = none := by
  rw [beforeEnding?, List.map_append, map_toLower_of_isDigit hdigits, if_neg]
  rw [List.isSuffixOf_iff_suffix]
  exact mt (suffix_of_suffix_append hdigits hending) h

theorem isAlpha_of_mem_literalSuffixes (hmem : ending ∈ literalSuffixes) :
    ∀ c ∈ ending, c.isAlpha = true := by
  have hall : ∀ ending ∈ literalSuffixes, ending.all Char.isAlpha = true := by decide
  exact List.all_eq_true.1 (hall ending hmem)

/-- The suffix of digits is taken off as a whole. -/
theorem findSome?_beforeEnding? (hdigits : ∀ c ∈ digits, c.isDigit = true)
    (hsuffix : suffix.map Char.toLower ∈ suffixes) :
    (literalSuffixes.findSome? fun s => beforeEnding? s (digits ++ suffix)).getD
      (digits ++ suffix) = digits := by
  by_cases hnil : suffix = []
  · have hnone : literalSuffixes.findSome? (fun s => beforeEnding? s (digits ++ suffix)) =
        none := by
      refine List.findSome?_eq_none_iff.2 fun ending hmem => ?_
      refine beforeEnding?_eq_none hdigits (isAlpha_of_mem_literalSuffixes hmem) fun h => ?_
      rw [hnil, List.map_nil, List.suffix_nil] at h
      exact absurd (h ▸ hmem) (by decide)
    rw [hnone, hnil, List.append_nil]
    rfl
  · have hfind : ∀ s ∈ suffixes, s ≠ [] → literalSuffixes.find? (·.isSuffixOf s) = some s := by
      decide
    obtain ⟨-, longer, others, hsplit, hlonger⟩ := List.find?_eq_some_iff_append.1
      (hfind _ hsuffix (mt List.map_eq_nil_iff.1 hnil))
    have hsome : literalSuffixes.findSome? (fun s => beforeEnding? s (digits ++ suffix)) =
        some digits := by
      refine List.findSome?_eq_some_iff.2 ⟨longer, _, others, hsplit, ?_, fun ending hmem => ?_⟩
      · exact beforeEnding?_eq_some_iff.2 ⟨suffix, rfl, rfl⟩
      · have hletters := isAlpha_of_mem_literalSuffixes (hsplit ▸ List.mem_append_left _ hmem)
        refine beforeEnding?_eq_none hdigits hletters fun h => ?_
        have hnot := hlonger ending hmem
        rw [List.isSuffixOf_iff_suffix.2 h] at hnot
        cases hnot
    rw [hsome]
    rfl

theorem exists_suffix (text : List Char) : ∃ suffix, text =
    (literalSuffixes.findSome? fun s => beforeEnding? s text).getD text ++ suffix ∧
      suffix.map Char.toLower ∈ suffixes := by
  cases hfind : literalSuffixes.findSome? fun s => beforeEnding? s text with
  | none => exact ⟨[], (List.append_nil text).symm, by decide⟩
  | some before =>
      obtain ⟨ending, hmem, hending⟩ := List.exists_of_findSome?_eq_some hfind
      obtain ⟨suffix, htext, rfl⟩ := beforeEnding?_eq_some_iff.1 hending
      have hsuffixes : ∀ s ∈ literalSuffixes, s ∈ suffixes := by decide
      exact ⟨suffix, htext, hsuffixes _ hmem⟩

theorem literal?_text (l : Literal) : literal? l.text = some l.value := by
  have hempty : l.digits.isEmpty = false := by simpa using l.digits_ne_nil
  have hall : l.digits.all Char.isDigit = true := List.all_eq_true.2 l.isDigit_digits
  rw [literal?, l.trimBlanks_text]
  dsimp only
  rw [findSome?_beforeEnding? l.isDigit_digits l.suffix_mem, hempty, hall,
    l.ofDigitChars_digits]
  exact if_pos l.value_lt

theorem exists_literal (h : literal? arg = some value) :
    ∃ l : Literal, l.text = arg ∧ l.value = value := by
  obtain ⟨left, right, harg, hleft, hright⟩ := exists_trimBlanks arg
  obtain ⟨suffix, htext, hsuffix⟩ := exists_suffix (trimBlanks arg)
  rw [literal?] at h
  dsimp only at h
  generalize (literalSuffixes.findSome? fun s => beforeEnding? s (trimBlanks arg)).getD
    (trimBlanks arg) = digits at h htext
  split_ifs at h with hdigits hlt
  simp only [Bool.and_eq_true, Bool.not_eq_true', List.isEmpty_eq_false_iff,
    List.all_eq_true] at hdigits
  obtain ⟨hne, hall⟩ := hdigits
  obtain ⟨zeros, hzeros⟩ := eq_replicate_append_toDigits hall hne
  obtain rfl := Option.some.inj h
  refine ⟨⟨left, zeros, _, suffix, right, hleft, hlt, hsuffix, hright⟩, ?_, rfl⟩
  rw [Literal.text, Literal.digits, ← hzeros, ← htext, ← harg]

/-- The texts that are read as an integer are those that may be written for it. -/
theorem literal?_eq_some_iff :
    literal? arg = some value ↔ ∃ l : Literal, l.text = arg ∧ l.value = value :=
  ⟨exists_literal, fun ⟨l, htext, hvalue⟩ => htext ▸ hvalue ▸ literal?_text l⟩

theorem literal?_eq_none_iff : literal? arg = none ↔ ∀ l : Literal, l.text ≠ arg := by
  rw [Option.eq_none_iff_forall_ne_some]
  constructor
  · intro h l htext
    exact h l.value (literal?_eq_some_iff.2 ⟨l, htext, rfl⟩)
  · intro h value hvalue
    obtain ⟨l, htext, -⟩ := literal?_eq_some_iff.1 hvalue
    exact h l htext

end Endings

end WorkGroupSize

end KernelIR
