import KernelIR.Proofs.Mangling.Occurrences
import Mathlib

/-!
# Normalized names

Of the stems in their order, the one that an identifier begins with is taken off, and its length
field holds the length of what is left.  The others find nothing to take, neither before nor after,
unless more than one identifier of the name begins with a stem.
-/

namespace KernelIR.MangledName

/-- An identifier behind its length in bytes, and a suffix. -/
def mangle (identifier suffix : String) : String :=
  s!"_Z{identifier.utf8ByteSize}" ++ identifier ++ suffix

/-- No builtin stem stands behind a length field in the text. -/
def Stemless (text : List Char) : Prop :=
  ∀ stem ∈ builtinStems, ∀ o : Occurrence, ¬o.In stem.toList text

section Texts

variable {stem text body digits : List Char} {o : Occurrence}

theorem Occurrence.In.append (h : o.In stem text) (left : List Char) :
    Occurrence.In stem (left ++ text) { o with before := left ++ o.before } :=
  ⟨by rw [h.text_eq, List.append_assoc], h.digits_ne_nil, h.isDigit⟩

/-- No occurrence begins in a text without underscores. -/
theorem Occurrence.In.of_append {left : List Char} (hleft : '_' ∉ left)
    (h : o.In stem (left ++ text)) : ∃ before, Occurrence.In stem text { o with before } := by
  induction left generalizing o with
  | nil => exact ⟨_, h⟩
  | cons c left ih =>
      obtain ⟨hc, hleft⟩ := not_or.1 (List.mem_cons.not.1 hleft)
      obtain ⟨before, digits, after⟩ := o
      cases before with
      | nil => exact absurd (List.cons.inj h.text_eq).1.symm hc
      | cons d before =>
          have hrest := ih hleft h.of_cons.2
          exact hrest

/-- Behind the length field of a text its stems are those that its body begins with, or has. -/
theorem not_in_mangled (hne : stem ≠ []) (hstem : StartsPlain stem)
    (hdigits : ∀ c ∈ digits, c.isDigit = true) (hbody : StartsPlain body)
    (hstart : ¬stem <+: body) (hfree : ∀ o : Occurrence, ¬o.In stem body) :
    ¬o.In stem ('_' :: 'Z' :: (digits ++ body)) := by
  intro h
  obtain ⟨before, digits', after⟩ := o
  cases before with
  | nil =>
      have htext : digits ++ body = digits' ++ (stem ++ after) := by
        simpa using h.text_eq
      have hrest := congrArg (List.dropWhile Char.isDigit) htext
      rw [dropWhile_isDigit hdigits hbody,
        dropWhile_isDigit h.isDigit (hstem.append hne after)] at hrest
      exact hstart ⟨after, hrest.symm⟩
  | cons d before =>
      have hleft : '_' ∉ 'Z' :: digits := by
        rw [List.mem_cons, not_or]
        exact ⟨by decide, fun hmem => absurd (hdigits _ hmem) (by decide)⟩
      obtain ⟨before, h⟩ := Occurrence.In.of_append hleft h.of_cons.2
      exact hfree _ h

theorem stemless_iff : Stemless text ↔
    ∀ stem ∈ builtinStems, find? stem.toList text = none := by
  refine forall₂_congr fun stem hstem => ?_
  obtain ⟨hne, hplain⟩ := startsPlain_of_mem_builtinStems hstem
  exact (find?_eq_none_iff hne hplain).symm

instance (text : List Char) : Decidable (Stemless text) := decidable_of_iff _ stemless_iff.symm

theorem Stemless.of_append {left : List Char} (h : Stemless (left ++ text)) : Stemless text :=
  fun stem hstem _ ho => h stem hstem _ (ho.append left)

end Texts

section Names

variable {stem name name' : String} {stems : List String}

/-- Takes stems off in order, each from what the one before it left. -/
def stripAll (stems : List String) (name : String) : Except Failure String :=
  stems.foldlM (fun name stem => do return (← strip stem name).getD name) name

theorem normalize_eq_stripAll (name : String) : normalize name = stripAll builtinStems name := rfl

theorem stripAll_of_none (h : ∀ stem ∈ stems, strip stem name = .ok none) :
    stripAll stems name = .ok name := by
  induction stems with
  | nil => rfl
  | cons stem stems ih =>
      obtain ⟨hstem, hstems⟩ := List.forall_mem_cons.1 h
      rw [stripAll, List.foldlM_cons, hstem]
      exact ih hstems

theorem stripAll_append (h : stripAll stems name = .ok name') (stems' : List String) :
    stripAll (stems ++ stems') name = stripAll stems' name' := by
  rw [stripAll, List.foldlM_append]
  rw [stripAll] at h
  rw [h]
  rfl

theorem toList_mangle (identifier suffix : String) : (mangle identifier suffix).toList =
    '_' :: 'Z' :: (Nat.toDigits 10 identifier.utf8ByteSize ++ (identifier ++ suffix).toList) := by
  simp [mangle]
  rfl

theorem normalize_of_stemless (h : Stemless name.toList) : normalize name = .ok name :=
  stripAll_of_none fun stem hstem => (strip_eq_none_iff hstem).2 (h stem hstem)

/-- A stem is not found in a mangled name if the identifier does not begin with it and no other
identifier is there. -/
theorem strip_mangle_eq_none {identifier suffix : String} (hstem : stem ∈ builtinStems)
    (hplain : StartsPlain (identifier ++ suffix).toList)
    (hstart : ¬stem.toList <+: (identifier ++ suffix).toList)
    (hfree : Stemless (identifier ++ suffix).toList) :
    strip stem (mangle identifier suffix) = .ok none := by
  obtain ⟨hne, hstemPlain⟩ := startsPlain_of_mem_builtinStems hstem
  rw [strip_eq_none_iff hstem, toList_mangle]
  intro o
  exact not_in_mangled hne hstemPlain (isDigit_toDigits _) hplain hstart (hfree stem hstem)

/-- A stem that the identifier begins with is taken off, and off its length. -/
theorem strip_mangle (hstem : stem ∈ builtinStems) (r s : String) :
    strip stem (mangle (stem ++ r) s) =
      if (stem ++ r).utf8ByteSize < UInt64.size then .ok (some (mangle r s))
      else .error (.lengthField (mangle (stem ++ r) s) stem) := by
  have hfirst : Occurrence.First stem.toList (mangle (stem ++ r) s).toList
      ⟨[], Nat.toDigits 10 (stem ++ r).utf8ByteSize, (r ++ s).toList⟩ := by
    refine ⟨⟨?_, Nat.toDigits_ne_nil, isDigit_toDigits _⟩, fun _ _ => Nat.zero_le _⟩
    rw [toList_mangle, List.nil_append, ← String.toList_append, String.append_assoc]
  have hlength : (stem ++ r).utf8ByteSize = stem.utf8ByteSize + r.utf8ByteSize :=
    String.utf8ByteSize_append
  rw [strip_of_first hstem hfirst, Occurrence.length, Nat.ofDigitChars_ten_toDigits, hlength]
  split_ifs with hbad hfits hfits
  · omega
  · rfl
  · simp [mangle, String.append_assoc]
  · omega

end Names

/-- The identifier of a name loses the first stem that it begins with, and the length field stays
correct, provided that the length could be read into a machine word.  A name without stems stays, in
particular what normalization answers. -/
theorem normalize_mangle :
    (∀ p r s : String,
      builtinStems.find? (fun stem => stem.toList.isPrefixOf (p ++ r ++ s).toList) = some p →
      StartsPlain (r ++ s).toList →
      (∀ stem ∈ builtinStems, ¬stem.toList <+: (r ++ s).toList) →
      Stemless (p ++ r ++ s).toList →
      normalize (mangle (p ++ r) s) =
        (if (p ++ r).utf8ByteSize < UInt64.size then .ok (mangle r s)
          else .error (.lengthField (mangle (p ++ r) s) p)) ∧
      normalize (mangle r s) = .ok (mangle r s)) ∧
    ∀ name : String, Stemless name.toList → normalize name = .ok name := by
  refine ⟨fun p r s hfind hplain hstart hfree => ?_, fun name => normalize_of_stemless⟩
  obtain ⟨-, first, later, hstems, hearlier⟩ := List.find?_eq_some_iff_append.1 hfind
  have hp : p ∈ builtinStems := hstems ▸ List.mem_append_right _ List.mem_cons_self
  have htext : (p ++ r ++ s).toList = p.toList ++ (r ++ s).toList := by
    rw [String.append_assoc, String.toList_append]
  have hrest : Stemless (r ++ s).toList := Stemless.of_append (htext ▸ hfree)
  have hleft : ∀ stem ∈ builtinStems, strip stem (mangle r s) = .ok none := fun stem hstem =>
    strip_mangle_eq_none hstem hplain (hstart stem hstem) hrest
  have hfirst : stripAll first (mangle (p ++ r) s) = .ok (mangle (p ++ r) s) := by
    refine stripAll_of_none fun stem hstem => ?_
    have hnot : ¬stem.toList <+: (p ++ r ++ s).toList := fun h => by
      have hno := hearlier stem hstem
      rw [List.isPrefixOf_iff_prefix.2 h] at hno
      cases hno
    refine strip_mangle_eq_none (hstems ▸ List.mem_append_left _ hstem) ?_ hnot hfree
    obtain ⟨hne, hplainStem⟩ := startsPlain_of_mem_builtinStems hp
    exact htext ▸ hplainStem.append hne _
  have hlater : stripAll later (mangle r s) = .ok (mangle r s) :=
    stripAll_of_none fun stem hstem =>
      hleft stem (hstems ▸ List.mem_append_right _ (List.mem_cons_of_mem _ hstem))
  refine ⟨?_, stripAll_of_none hleft⟩
  rw [normalize_eq_stripAll, hstems, stripAll_append hfirst, stripAll, List.foldlM_cons,
    strip_mangle hp]
  split_ifs
  · exact hlater
  · rfl

/-- The identifier begins with two of the stems, and the longer goes. -/
theorem clampName_normalize :
    normalize (mangle "__spirv_ocl_s_clamp" "iii") = .ok (mangle "clamp" "iii") ∧
      normalize (mangle "clamp" "iii") = .ok (mangle "clamp" "iii") ∧
      mangle "__spirv_ocl_s_clamp" "iii" = "_Z19__spirv_ocl_s_clampiii" ∧
      mangle "clamp" "iii" = "_Z5clampiii" := by
  obtain ⟨hfirst, hagain⟩ := normalize_mangle.1 "__spirv_ocl_s_" "clamp" "iii" (by decide +kernel)
    (by decide +kernel) (by decide +kernel) (by decide +kernel)
  rw [if_pos (by decide +kernel)] at hfirst
  exact ⟨hfirst, hagain, by decide +kernel, by decide +kernel⟩

end KernelIR.MangledName
