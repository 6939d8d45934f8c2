import KernelIR.Proofs.Mangling.Occurrences
import Mathlib

/-!
# Mangled names in bytes

A stem can be taken off a name by cutting the name at byte offsets, which are found by counting: two
bytes for the mark, one for each digit, and those of the stem.  No cut misses: each one lies inside
of the name and between two characters, whatever characters the name has.
-/

namespace KernelIR.MangledName

/-- The text between two byte offsets, if they lie in order, inside of it and between characters. -/
def slice? (text : String) (start stop : Nat) : Option String :=
  if start ≤ stop ∧ String.Pos.Raw.IsValid text ⟨start⟩ ∧ String.Pos.Raw.IsValid text ⟨stop⟩ then
    some (String.Pos.Raw.extract text ⟨start⟩ ⟨stop⟩)
  else none

def isDigitByte (b : UInt8) : Bool := 48 ≤ b && b ≤ 57

/-- How many bytes at the start of a text are digits. -/
def digitBytes (text : String) : Nat :=
  (text.toByteArray.data.toList.takeWhile isDigitByte).length

/-- The byte offsets at which `_Z` stands in a text that starts at `offset`. -/
def marks (offset : Nat) : List Char → List Nat
  | [] => []
  | '_' :: 'Z' :: text => offset :: marks (offset + 2) text
  | c :: text => marks (offset + c.utf8Size) text

/-- An occurrence of a stem by byte offsets: that of the mark, and that behind the stem. -/
structure Span where
  start : Nat
  digits : String
  stop : Nat

/-- The span of the mark at `start`, if digits and the stem follow it.  The outer option is empty if
a cut misses. -/
def spanAt? (stem name : String) (start : Nat) : Option (Option Span) := do
  let count := digitBytes (← slice? name (start + 2) name.utf8ByteSize)
  if count = 0 then return none
  let digitsEnd := start + 2 + count
  let rest ← slice? name digitsEnd name.utf8ByteSize
  if stem.toList.isPrefixOf rest.toList then
    let digits ← slice? name (start + 2) digitsEnd
    return some ⟨start, digits, digitsEnd + stem.utf8ByteSize⟩
  else return none

/-- Takes a stem off a name by cuts at byte offsets. -/
def stripSlices? (stem name : String) : Option (Except Failure (Option String)) := do
  match ← (marks 0 name.toList).findSomeM? (spanAt? stem name) with
  | none => return .ok none
  | some span =>
    let length := Nat.ofDigitChars 10 span.digits.toList 0
    if length < UInt64.size ∧ stem.utf8ByteSize ≤ length then
      let before ← slice? name 0 span.start
      let after ← slice? name span.stop name.utf8ByteSize
      return .ok (some (s!"_Z{length - stem.utf8ByteSize}" ++ before ++ after))
    else return .error (.lengthField name stem)

section Cuts

open String (utf8Len)

variable {stem name : String} {left mid right text : List Char}

theorem isValid_utf8Len (h : name.toList = left ++ right) :
    String.Pos.Raw.IsValid name ⟨utf8Len left⟩ := by
  refine String.Pos.Raw.isValid_iff_exists_append.2 ⟨.ofList left, .ofList right, ?_, ?_⟩
  · rw [← String.ofList_append, ← h, String.ofList_toList]
  · rw [String.rawEndPos, String.utf8ByteSize_ofList]

/-- A cut between characters does not miss. -/
theorem slice?_eq_some (h : name.toList = left ++ mid ++ right) :
    slice? name (utf8Len left) (utf8Len left + utf8Len mid) = some (.ofList mid) := by
  have hstart := isValid_utf8Len (h.trans (List.append_assoc left mid right))
  have hstop := isValid_utf8Len h
  rw [String.utf8Len_append] at hstop
  rw [slice?, if_pos ⟨Nat.le_add_right _ _, hstart, hstop⟩,
    ← String.extract_of_valid left mid right, ← h, String.ofList_toList]

theorem slice?_eq_some_of_prefix (h : name.toList = left ++ right) :
    slice? name 0 (utf8Len left) = some (.ofList left) := by
  have h' : name.toList = [] ++ left ++ right := h
  simpa using slice?_eq_some h'

theorem slice?_eq_some_of_suffix (h : name.toList = left ++ right) :
    slice? name (utf8Len left) name.utf8ByteSize = some (.ofList right) := by
  have hsize : name.utf8ByteSize = utf8Len left + utf8Len right := by
    rw [← String.utf8Len_append, ← h, String.utf8Len_toList]
  rw [hsize]
  exact slice?_eq_some (h.trans (List.append_nil _).symm)

theorem isDigitByte_ofNat_iff {n : Nat} (h : n < 256) :
    isDigitByte (UInt8.ofNat n) = true ↔ 48 ≤ n ∧ n ≤ 57 := by
  have hn : (UInt8.ofNat n).toNat = n := by simpa using h
  simp [isDigitByte, UInt8.le_iff_toNat_le, hn]

/-- A digit is one byte, and no other character begins with such a byte. -/
theorem takeWhile_utf8EncodeChar (c : Char) (bytes : List UInt8) :
    (String.utf8EncodeChar c ++ bytes).takeWhile isDigitByte =
      if c.isDigit then UInt8.ofNat c.toNat :: bytes.takeWhile isDigitByte else [] := by
  have hv : c.val.toNat = c.toNat := rfl
  rw [String.utf8EncodeChar, hv]
  split
  · have hiff : isDigitByte (UInt8.ofNat c.toNat) = true ↔ c.isDigit = true := by
      rw [isDigitByte_ofNat_iff (by omega), isDigit_iff]
    rw [List.singleton_append, List.takeWhile_cons]
    simp only [hiff]
  · next hlarge =>
      have hdigit : c.isDigit = false := by
        rw [Bool.eq_false_iff, Ne, isDigit_iff]
        omega
      simp only [hdigit, Bool.false_eq_true, if_false]
      -- The byte that leads the others is at least 192.
      split_ifs <;> rw [List.cons_append, List.takeWhile_cons_of_neg] <;>
        · rw [isDigitByte_ofNat_iff (by omega)]
          omega

theorem digitBytes_ofList (text : List Char) :
    digitBytes (.ofList text) = (text.takeWhile Char.isDigit).length := by
  have hbytes : (String.ofList text).toByteArray.data.toList =
      text.flatMap String.utf8EncodeChar := by
    rw [String.toByteArray_ofList, List.utf8Encode, List.data_toByteArray]
  rw [digitBytes, hbytes]
  clear hbytes
  induction text with
  | nil => rfl
  | cons c text ih =>
      rw [List.flatMap_cons, takeWhile_utf8EncodeChar, List.takeWhile_cons]
      split
      · rw [List.length_cons, List.length_cons, ih]
      · rfl

theorem isPrefixOf_eq_isSome_afterStem? (stem text : List Char) :
    stem.isPrefixOf text = (afterStem? stem text).isSome := by
  rw [Bool.eq_iff_iff, List.isPrefixOf_iff_prefix, Option.isSome_iff_exists]
  exact exists_congr fun rest => by rw [afterStem?_eq_some_iff, eq_comm]

/-- An occurrence by byte offsets. -/
def Occurrence.span (stem : String) (o : Occurrence) : Span where
  start := utf8Len o.before
  digits := .ofList o.digits
  stop := utf8Len o.before + 2 + utf8Len o.digits + stem.utf8ByteSize

theorem spanAt?_eq (h : name.toList = left ++ '_' :: 'Z' :: text) :
    spanAt? stem name (utf8Len left) =
      some ((matchHere? stem.toList ('_' :: 'Z' :: text)).map fun found =>
        Occurrence.span stem ⟨left, found.1, found.2⟩) := by
  have hmark : utf8Len left + 2 = utf8Len (left ++ ['_', 'Z']) := by
    rw [String.utf8Len_append]
    rfl
  have htext : name.toList = (left ++ ['_', 'Z']) ++ text := by simpa using h
  have hdigits : ∀ c ∈ text.takeWhile Char.isDigit, c.isDigit = true :=
    fun c hc => List.mem_takeWhile_imp hc
  have hcount : digitBytes (.ofList text) = utf8Len (text.takeWhile Char.isDigit) := by
    rw [digitBytes_ofList, utf8Len_of_isDigit hdigits]
  have hrest : name.toList = (left ++ ['_', 'Z'] ++ text.takeWhile Char.isDigit) ++
      text.dropWhile Char.isDigit := by
    rw [List.append_assoc, List.takeWhile_append_dropWhile, htext]
  rw [spanAt?, hmark, slice?_eq_some_of_suffix htext, matchHere?]
  dsimp only [Option.bind_eq_bind, Option.bind_some]
  rw [hcount]
  by_cases hempty : text.takeWhile Char.isDigit = []
  · simp [hempty]
  rw [if_neg (by simpa using hempty), if_neg (by simpa using hempty), ← String.utf8Len_append,
    slice?_eq_some_of_suffix hrest]
  dsimp only [Option.bind_some]
  rw [String.toList_ofList, isPrefixOf_eq_isSome_afterStem?]
  cases afterStem? stem.toList (text.dropWhile Char.isDigit) with
  | none => rfl
  | some after =>
      have hcut := slice?_eq_some hrest
      rw [← String.utf8Len_append] at hcut
      rw [Option.isSome_some, if_pos rfl, hcut, String.utf8Len_append, ← hmark]
      rfl

theorem matchHere?_eq_none {stem : List Char} (h : ∀ rest, text ≠ '_' :: 'Z' :: rest) :
    matchHere? stem text = none := by
  unfold matchHere?
  split
  · next rest => exact absurd rfl (h rest)
  · rfl

theorem find?_cons_of_none {stem : List Char} {c : Char}
    (h : matchHere? stem (c :: text) = none) :
    find? stem (c :: text) = (find? stem text).map fun o => { o with before := c :: o.before } := by
  rw [find?, h]

/-- The search by byte offsets finds what the search by characters finds. -/
theorem findSomeM?_marks {offset : Nat} (h : name.toList = left ++ text)
    (hoffset : offset = utf8Len left) :
    (marks offset text).findSomeM? (spanAt? stem name) =
      some ((find? stem.toList text).map fun o =>
        Occurrence.span stem { o with before := left ++ o.before }) := by
  fun_induction marks offset text generalizing left with
  | case1 => rfl
  | case2 offset text ih =>
      subst hoffset
      rw [List.findSomeM?_cons, spanAt?_eq h]
      cases hhere : matchHere? stem.toList ('_' :: 'Z' :: text) with
      | some found =>
          rw [find?, hhere]
          simp
      | none =>
          have hnone : matchHere? stem.toList ('Z' :: text) = none :=
            matchHere?_eq_none fun rest heq => absurd (List.cons.inj heq).1 (by decide)
          have htext : name.toList = left ++ ['_', 'Z'] ++ text := by simpa using h
          have hrest := ih htext (by simp; rfl)
          rw [find?_cons_of_none hhere, find?_cons_of_none hnone]
          simpa [Function.comp_def] using hrest
  | case3 offset c text hmark ih =>
      have htext : name.toList = left ++ [c] ++ text := by simpa using h
      have hrest := ih htext (by simp [hoffset])
      have hnone : matchHere? stem.toList (c :: text) = none :=
        matchHere?_eq_none fun rest heq => hmark rest (List.cons.inj heq).1 (List.cons.inj heq).2
      rw [hrest, find?_cons_of_none hnone]
      simp [Function.comp_def]

/-- No cut misses, and the cuts take the stem off. -/
theorem stripSlices?_eq (stem name : String) : stripSlices? stem name = some (strip stem name) := by
  have htext : name.toList = [] ++ name.toList := rfl
  have hsearch : (marks 0 name.toList).findSomeM? (spanAt? stem name) =
      some ((find? stem.toList name.toList).map (Occurrence.span stem)) :=
    findSomeM?_marks htext rfl
  rw [stripSlices?, strip, hsearch]
  cases hfind : find? stem.toList name.toList with
  | none => rfl
  | some o =>
      have hin := in_of_find? hfind
      have hname : name.toList =
          (o.before ++ ['_', 'Z'] ++ o.digits ++ stem.toList) ++ o.after := by
        rw [hin.text_eq]
        simp
      have hstop : (o.span stem).stop =
          utf8Len (o.before ++ ['_', 'Z'] ++ o.digits ++ stem.toList) := by
        simp only [String.utf8Len_append, String.utf8Len_toList]
        rfl
      have hdigits : (o.span stem).digits.toList = o.digits := String.toList_ofList
      have hbefore : slice? name 0 (o.span stem).start = some (.ofList o.before) :=
        slice?_eq_some_of_prefix hin.text_eq
      have hafter : slice? name (o.span stem).stop name.utf8ByteSize = some (.ofList o.after) :=
        hstop ▸ slice?_eq_some_of_suffix hname
      dsimp only [Option.map_some, Option.bind_eq_bind, Option.bind_some]
      rw [hdigits, hbefore, hafter]
      split
      · rw [String.ofList_append, ← String.append_assoc]
        rfl
      · rfl

end Cuts

/-- A stem is taken off the first place where it stands behind a length field, if the field holds a
number that is large enough and fits a machine word, and nothing is done if there is no such place.
All cuts on the way lie inside of the name and between characters. -/
theorem strip_first {stem : String} (hstem : stem ∈ builtinStems) (name : String) :
    (strip stem name = .ok none ↔ ∀ o : Occurrence, ¬o.In stem.toList name.toList) ∧
    ((∃ o : Occurrence, o.In stem.toList name.toList) →
      ∃! o : Occurrence, o.First stem.toList name.toList ∧ strip stem name =
        if o.length < stem.utf8ByteSize ∨ UInt64.size ≤ o.length then
          .error (.lengthField name stem)
        else
          .ok (some (s!"_Z{o.length - stem.utf8ByteSize}" ++
            String.ofList (o.before ++ o.after)))) ∧
    stripSlices? stem name = some (strip stem name) := by
  refine ⟨strip_eq_none_iff hstem, fun ⟨o, ho⟩ => ?_, stripSlices?_eq stem name⟩
  obtain ⟨hne, hplain⟩ := startsPlain_of_mem_builtinStems hstem
  cases hfind : find? stem.toList name.toList with
  | none => exact absurd ho ((find?_eq_none_iff hne hplain).1 hfind o)
  | some first =>
      have hfirst := (find?_eq_some_iff hne hplain).1 hfind
      refine ⟨first, ⟨hfirst, strip_of_first hstem hfirst⟩, fun o' ⟨ho', _⟩ => ?_⟩
      have hfind' := (find?_eq_some_iff hne hplain).2 ho'
      exact Option.some.inj (hfind'.symm.trans hfind)

/-- Behind a character of two bytes and a mark that no stem follows. -/
def secondMark : Occurrence := ⟨"é_Z4x".toList, "14".toList, "abc".toList⟩

theorem secondMark_first :
    "__spir_ocl_" ∈ builtinStems ∧
      secondMark.First "__spir_ocl_".toList "é_Z4x_Z14__spir_ocl_abc".toList ∧
      strip "__spir_ocl_" "é_Z4x_Z14__spir_ocl_abc" = .ok (some "_Z3é_Z4xabc") ∧
      stripSlices? "__spir_ocl_" "é_Z4x_Z14__spir_ocl_abc" = some (.ok (some "_Z3é_Z4xabc")) := by
  have hstem : "__spir_ocl_" ∈ builtinStems := by decide
  have hin : secondMark.In "__spir_ocl_".toList "é_Z4x_Z14__spir_ocl_abc".toList :=
    ⟨by decide +kernel, by decide +kernel, by simp [secondMark]⟩
  obtain ⟨-, hfirst, hslices⟩ := strip_first hstem "é_Z4x_Z14__spir_ocl_abc"
  obtain ⟨o, ⟨ho, hstrip⟩, -⟩ := hfirst ⟨_, hin⟩
  obtain rfl : o = secondMark := by
    obtain ⟨hne, hplain⟩ := startsPlain_of_mem_builtinStems hstem
    have hfind := (find?_eq_some_iff hne hplain).2 ho
    exact Option.some.inj (hfind.symm.trans (by decide +kernel))
  have hresult := hstrip.trans (b := _) (c := .ok (some "_Z3é_Z4xabc")) (by decide +kernel)
  exact ⟨hstem, ho, hresult, hslices.trans (congrArg some hresult)⟩

end KernelIR.MangledName
