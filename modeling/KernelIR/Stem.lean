/-!
# Stems

Texts by what they start with.  `afterStem?` answers the rest, `fromStem?` looks for the first place
where the stem stands.
-/

namespace KernelIR

def afterStem? : (stem text : List Char) → Option (List Char)
  | [], text => some text
  | _ :: _, [] => none
  | c :: stem, d :: text => if c = d then afterStem? stem text else none

/-- The longest end of a text that starts with `stem`. -/
def fromStem? (stem : List Char) : List Char → Option (List Char)
  | [] => (afterStem? stem []).map fun _ => []
  | c :: text =>
    if (afterStem? stem (c :: text)).isSome then some (c :: text) else fromStem? stem text

theorem afterStem?_eq_some_iff {stem text rest : List Char} :
    afterStem? stem text = some rest ↔ text = stem ++ rest := by
  induction stem generalizing text with
  | nil => simp [afterStem?]
  | cons c stem ih =>
    cases text with
    | nil => simp [afterStem?]
    | cons d text =>
      simp only [afterStem?, List.cons_append, List.cons.injEq]
      split <;> grind

@[simp] theorem afterStem?_append (stem rest : List Char) :
    afterStem? stem (stem ++ rest) = some rest :=
  afterStem?_eq_some_iff.2 rfl

end KernelIR
