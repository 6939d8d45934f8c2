import KernelIR.MangledName
import KernelIR.Proofs.Digits
import Mathlib

/-!
# Where stems stand in mangled names

A stem counts only right behind a length field.  A name is cut there in at most one way at each
place, since the stems of builtins do not begin with a digit, and the search answers the first
place.
-/

namespace KernelIR.MangledName

namespace Occurrence

/-- The text is a length field and the stem, with `o.before` and `o.after` around them. -/
structure In (stem text : List Char) (o : Occurrence) : Prop where
  text_eq : text = o.before ++ '_' :: 'Z' :: (o.digits ++ (stem ++ o.after))
  digits_ne_nil : o.digits ≠ []
  isDigit : ∀ c ∈ o.digits, c.isDigit = true

/-- The number that the length field holds. -/
def length (o : Occurrence) : Nat := Nat.ofDigitChars 10 o.digits 0

/-- No occurrence has a shorter text before it. -/
structure First (stem text : List Char) (o : Occurrence) : Prop extends o.In stem text where
  le : ∀ o' : Occurrence, o'.In stem text → o.before.length ≤ o'.before.length

theorem In.cons {stem text : List Char} {o : Occurrence} (h : o.In stem text) (c : Char) :
    In stem (c :: text) { o with before := c :: o.before } :=
  ⟨congrArg (c :: ·) h.text_eq, h.digits_ne_nil, h.isDigit⟩

theorem In.of_cons {stem text before digits after : List Char} {c d : Char}
    (h : In stem (c :: text) ⟨d :: before, digits, after⟩) :
    d = c ∧ In stem text ⟨before, digits, after⟩ := by
  obtain ⟨rfl, htext⟩ := List.cons.inj h.text_eq
  exact ⟨rfl, htext, h.digits_ne_nil, h.isDigit⟩

end Occurrence

theorem in_of_matchHere? {stem text digits after : List Char}
    (h : matchHere? stem text = some (digits, after)) :
    Occurrence.In stem text ⟨[], digits, after⟩ := by
  unfold matchHere? at h
  split at h
  · next rest =>
      dsimp only at h
      split_ifs at h with hempty
      obtain ⟨after', hafter, heq⟩ := Option.map_eq_some_iff.1 h
      cases heq
      refine ⟨?_, by simpa using hempty, fun c hc => List.mem_takeWhile_imp hc⟩
      rw [← afterStem?_eq_some_iff.1 hafter, List.takeWhile_append_dropWhile, List.nil_append]
  · cases h

/-- What is found stands in the text. -/
theorem in_of_find? {stem text : List Char} {o : Occurrence} (h : find? stem text = some o) :
    o.In stem text := by
  induction text generalizing o with
  | nil => cases h
  | cons c text ih =>
      rw [find?] at h
      split at h
      · next hhere =>
          cases h
          exact in_of_matchHere? hhere
      · obtain ⟨o', ho', rfl⟩ := Option.map_eq_some_iff.1 h
        exact (ih ho').cons c

variable {stem text : List Char} {o : Occurrence}

/-- The run of digits ends where the stem begins, so that the length field is read in full. -/
theorem matchHere?_eq_some_iff (hne : stem ≠ []) (hstem : StartsPlain stem)
    {digits after : List Char} : matchHere? stem text = some (digits, after) ↔
      Occurrence.In stem text ⟨[], digits, after⟩ := by
  refine ⟨in_of_matchHere?, fun ⟨htext, hdigits, hall⟩ => ?_⟩
  have hrest := hstem.append hne after
  have hempty : digits.isEmpty = false := by simpa using hdigits
  rw [htext, List.nil_append, matchHere?]
  dsimp only
  rw [takeWhile_isDigit hall hrest, dropWhile_isDigit hall hrest, hempty, afterStem?_append]
  rfl

/-- An occurrence begins with the text, or stands in what follows the first character. -/
theorem in_cons_iff (hne : stem ≠ []) (hstem : StartsPlain stem) {c : Char} :
    o.In stem (c :: text) ↔
      o.before = [] ∧ matchHere? stem (c :: text) = some (o.digits, o.after) ∨
        ∃ before, o.before = c :: before ∧ Occurrence.In stem text { o with before } := by
  obtain ⟨before, digits, after⟩ := o
  constructor
  · intro h
    cases before with
    | nil => exact Or.inl ⟨rfl, (matchHere?_eq_some_iff hne hstem).2 h⟩
    | cons d before =>
        obtain ⟨rfl, hrest⟩ := h.of_cons
        exact Or.inr ⟨before, rfl, hrest⟩
  · rintro (⟨rfl, h⟩ | ⟨before, rfl, h⟩)
    · exact in_of_matchHere? h
    · exact h.cons c

theorem not_in_nil : ¬o.In stem [] := fun h => by
  have hlength := congrArg List.length h.text_eq
  simp at hlength

/-- The search answers the first occurrence. -/
theorem find?_eq_some_iff (hne : stem ≠ []) (hstem : StartsPlain stem) :
    find? stem text = some o ↔ o.First stem text := by
  induction text generalizing o with
  | nil => exact iff_of_false nofun fun h => not_in_nil h.toIn
  | cons c text ih =>
      rw [find?]
      split
      · next digits after hhere =>
          have hin := in_of_matchHere? hhere
          constructor
          · intro h
            cases h
            exact ⟨hin, fun _ _ => Nat.zero_le _⟩
          · intro h
            have hnil := List.eq_nil_of_length_eq_zero (Nat.le_zero.1 (h.le _ hin))
            rcases (in_cons_iff hne hstem).1 h.toIn with ⟨-, hhere'⟩ | ⟨before, hbefore, -⟩
            · cases hhere.symm.trans hhere'
              rw [← hnil]
            · cases hnil.symm.trans hbefore
      · next hhere =>
          -- Without a match here, occurrences are those of the rest, one character later.
          have hlater : ∀ o' : Occurrence, o'.In stem (c :: text) →
              ∃ before, o'.before = c :: before ∧ Occurrence.In stem text { o' with before } :=
            fun o' h => ((in_cons_iff hne hstem).1 h).resolve_left fun h' => by
              rw [hhere] at h'
              cases h'.2
          rw [Option.map_eq_some_iff]
          constructor
          · rintro ⟨o', ho', rfl⟩
            have hfirst := ih.1 ho'
            refine ⟨hfirst.toIn.cons c, fun o₁ h₁ => ?_⟩
            obtain ⟨before, hbefore, h₁⟩ := hlater o₁ h₁
            rw [hbefore]
            exact Nat.succ_le_succ (hfirst.le _ h₁)
          · intro h
            obtain ⟨before, hbefore, hin⟩ := hlater o h.toIn
            refine ⟨{ o with before }, ih.2 ⟨hin, fun o' ho' => ?_⟩, by rw [← hbefore]⟩
            have hle := h.le _ (ho'.cons c)
            rw [hbefore] at hle
            exact Nat.le_of_succ_le_succ hle

theorem find?_eq_none_iff (hne : stem ≠ []) (hstem : StartsPlain stem) :
    find? stem text = none ↔ ∀ o : Occurrence, ¬o.In stem text := by
  induction text with
  | nil => exact iff_of_true rfl fun _ => not_in_nil
  | cons c text ih =>
      rw [find?]
      split
      · next hhere => exact iff_of_false nofun fun h => h _ (in_of_matchHere? hhere)
      · next hhere =>
          rw [Option.map_eq_none_iff, ih]
          refine ⟨fun h o ho => ?_, fun h o ho => h _ (ho.cons c)⟩
          rcases (in_cons_iff hne hstem).1 ho with ⟨-, hhere'⟩ | ⟨before, -, ho⟩
          · cases hhere.symm.trans hhere'
          · exact h _ ho

section Strip

variable {stem name : String}

theorem startsPlain_of_mem_builtinStems (hstem : stem ∈ builtinStems) :
    stem.toList ≠ [] ∧ StartsPlain stem.toList := by
  have h : ∀ stem ∈ builtinStems, stem.toList ≠ [] ∧ StartsPlain stem.toList := by decide
  exact h stem hstem

theorem strip_eq_none_iff (hstem : stem ∈ builtinStems) :
    strip stem name = .ok none ↔ ∀ o : Occurrence, ¬o.In stem.toList name.toList := by
  obtain ⟨hne, hplain⟩ := startsPlain_of_mem_builtinStems hstem
  rw [← find?_eq_none_iff hne hplain, strip]
  split
  · next hnone => exact iff_of_true rfl hnone
  · next o ho =>
      rw [ho]
      dsimp only
      split_ifs <;> exact iff_of_false nofun nofun

/-- The length field of the first occurrence decides. -/
theorem strip_of_first (hstem : stem ∈ builtinStems) {o : Occurrence}
    (ho : o.First stem.toList name.toList) : strip stem name =
      if o.length < stem.utf8ByteSize ∨ UInt64.size ≤ o.length then
        .error (.lengthField name stem)
      else
        .ok (some (s!"_Z{o.length - stem.utf8ByteSize}" ++
          String.ofList (o.before ++ o.after))) := by
  obtain ⟨hne, hplain⟩ := startsPlain_of_mem_builtinStems hstem
  rw [strip, (find?_eq_some_iff hne hplain).2 ho]
  dsimp only
  rw [← Occurrence.length]
  split_ifs with hfits hbad hbad
  · omega
  · rfl
  · rfl
  · omega

end Strip

end KernelIR.MangledName
