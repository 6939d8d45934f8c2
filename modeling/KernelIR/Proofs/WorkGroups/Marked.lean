import KernelIR.Proofs.WorkGroups.Literals
import Mathlib

/-!
# Annotated kernel names

Behind its marker the name of a kernel lists template arguments, separated by commas and closed by a
bracket.  Whatever is nested in the arguments and stands around the list, it is split where it was
joined, and the integers in front are read back.
-/

namespace KernelIR

theorem takeWhile_ne_append {c : Char} {text : List Char} (h : c ∉ text) (rest : List Char) :
    (text ++ c :: rest).takeWhile (· ≠ c) = text := by
  rw [List.takeWhile_append_of_pos fun d hd => decide_eq_true (ne_of_mem_of_not_mem hd h),
    List.takeWhile_cons_of_neg (by simp), List.append_nil]

/-- A stem that ends in a character which it has only there does not begin before the place where it
stands first. -/
theorem afterStem?_eq_none {init before : List Char} {last : Char} (hlast : last ∉ init)
    (hne : before ≠ []) (hbefore : ¬(init ++ [last]) <:+: before) (rest : List Char) :
    afterStem? (init ++ [last]) (before ++ (init ++ [last] ++ rest)) = none := by
  rw [Option.eq_none_iff_forall_ne_some]
  intro after h
  rw [afterStem?_eq_some_iff, List.append_assoc init, List.append_assoc init,
    List.singleton_append, List.singleton_append] at h
  have hends := congrArg (List.takeWhile (· ≠ last)) h
  rw [takeWhile_ne_append hlast] at hends
  by_cases hmem : last ∈ before
  · -- What stands before the stem would begin with it.
    obtain ⟨left, right, hsplit, hleft⟩ := List.eq_append_cons_of_mem hmem
    rw [hsplit, List.append_assoc, List.cons_append, takeWhile_ne_append hleft] at hends
    exact hbefore ⟨[], right, by simp [hsplit, hends]⟩
  · -- The stem would reach its end later than it does.
    have hnot : last ∉ before ++ init := by simp [hmem, hlast]
    rw [← List.append_assoc, takeWhile_ne_append hnot] at hends
    exact hne (List.append_left_eq_self.1 hends)

theorem fromStem?_append {init before : List Char} {last : Char} (hlast : last ∉ init)
    (hbefore : ¬(init ++ [last]) <:+: before) (rest : List Char) :
    fromStem? (init ++ [last]) (before ++ (init ++ [last] ++ rest)) =
      some (init ++ [last] ++ rest) := by
  induction before with
  | nil =>
      have hstem : (afterStem? (init ++ [last]) (init ++ [last] ++ rest)).isSome = true := by
        rw [afterStem?_append]
        rfl
      rw [List.nil_append]
      cases hcons : init ++ [last] ++ rest with
      | nil => simp at hcons
      | cons c text => rw [fromStem?, ← hcons, if_pos hstem]
  | cons c before ih =>
      have hnone := afterStem?_eq_none hlast (List.cons_ne_nil c before) hbefore rest
      rw [List.cons_append] at hnone ⊢
      rw [fromStem?, hnone, Option.isSome_none, if_neg Bool.false_ne_true]
      exact ih fun h => hbefore (h.trans (List.suffix_cons c before).isInfix)

namespace WorkGroupSize

/-- Text in which angle brackets match.  Commas outside of them are admitted only if `commas`. -/
inductive Bracketed : (commas : Bool) → List Char → Prop
  | nil {commas} : Bracketed commas []
  | char {commas c text} (hopen : c ≠ '<') (hclose : c ≠ '>') (hcomma : c = ',' → commas = true)
      (h : Bracketed commas text) : Bracketed commas (c :: text)
  | nest {commas inner text} (hinner : Bracketed true inner) (h : Bracketed commas text) :
      Bracketed commas ('<' :: (inner ++ '>' :: text))

/-- An argument list behind the marker, and what follows it. -/
def markedText (args : List (List Char)) (tail : String) : String :=
  marker ++ String.ofList (List.intercalate [','] args) ++ ">" ++ tail

section Arguments

variable {commas : Bool} {depth : Nat} {arg text rest : List Char} {args : List (List Char)}

theorem foldr_consFirst (text first : List Char) (args : List (List Char)) :
    text.foldr consFirst (first :: args) = (text ++ first) :: args := by
  induction text with
  | nil => rfl
  | cons c text ih => rw [List.foldr_cons, ih, consFirst, List.cons_append]

/-- The scanner passes over matched brackets, with what stands between them. -/
theorem templateArgs_bracketed (h : Bracketed commas text) (hdepth : commas = true → 0 < depth) :
    templateArgs depth (text ++ rest) = text.foldr consFirst (templateArgs depth rest) := by
  induction h generalizing depth rest with
  | nil => rfl
  | @char commas c text hopen hclose hcomma _ ih =>
      have hseparator : ¬(c = ',' ∧ depth = 0) := fun ⟨hc, hzero⟩ =>
        (hdepth (hcomma hc)).ne' hzero
      rw [List.cons_append, templateArgs, if_neg fun h => hclose h.1, if_neg hseparator]
      dsimp only
      rw [if_neg hopen, if_neg hclose, ih hdepth, List.foldr_cons]
  | @nest commas inner text _ _ ihinner ih =>
      have hopen : ∀ text, templateArgs depth ('<' :: text) =
          consFirst '<' (templateArgs (depth + 1) text) := fun text => by simp [templateArgs]
      have hclose : ∀ text, templateArgs (depth + 1) ('>' :: text) =
          consFirst '>' (templateArgs depth text) := fun text => by simp [templateArgs]
      rw [List.cons_append, hopen, List.append_assoc, ihinner fun _ => Nat.succ_pos depth,
        List.cons_append, hclose, ih hdepth, List.foldr_cons, List.foldr_append, List.foldr_cons]

theorem templateArgs_close (tail : List Char) : templateArgs 0 ('>' :: tail) = [[]] := by
  simp [templateArgs]

theorem templateArgs_comma (text : List Char) :
    templateArgs 0 (',' :: text) = [] :: templateArgs 0 text := by
  simp [templateArgs]

/-- A list is split where it was joined. -/
theorem templateArgs_intercalate (hne : args ≠ []) (h : ∀ arg ∈ args, Bracketed false arg)
    (tail : List Char) : templateArgs 0 (List.intercalate [','] args ++ '>' :: tail) = args := by
  induction args with
  | nil => exact absurd rfl hne
  | cons arg args ih =>
      obtain ⟨harg, hargs⟩ := List.forall_mem_cons.1 h
      cases args with
      | nil =>
          rw [List.intercalate_singleton, templateArgs_bracketed harg nofun, templateArgs_close,
            foldr_consFirst, List.append_nil]
      | cons next args =>
          rw [List.intercalate_cons_cons, List.append_assoc, List.append_assoc,
            templateArgs_bracketed harg nofun, List.singleton_append, templateArgs_comma,
            foldr_consFirst, List.append_nil, ih (List.cons_ne_nil next args) hargs]

theorem bracketed_of_forall (h : ∀ c ∈ text, c ≠ '<' ∧ c ≠ '>' ∧ c ≠ ',') :
    Bracketed commas text := by
  induction text with
  | nil => exact .nil
  | cons c text ih =>
      obtain ⟨⟨hopen, hclose, hcomma⟩, htext⟩ := List.forall_mem_cons.1 h
      exact .char hopen hclose (fun hc => absurd hc hcomma) (ih htext)

theorem Literal.bracketed (l : Literal) : Bracketed false l.text := by
  refine bracketed_of_forall fun c hc => ?_
  have hchar : isBlank c = true ∨ c.isAlphanum = true := by
    rcases List.mem_append.1 hc with hc | hc
    · exact (List.mem_append.1 hc).imp (l.left_blank c) (l.isAlphanum_core c)
    · exact Or.inl (l.right_blank c hc)
  refine ⟨?_, ?_, ?_⟩ <;>
    · rintro rfl
      revert hchar
      decide

/-- The integers in front are read, up to the first argument that is none. -/
theorem leadingLiterals_append (literals : List Literal) {others : List (List Char)}
    (h : ∀ arg ∈ others.head?, ∀ l : Literal, l.text ≠ arg) :
    leadingLiterals (literals.map Literal.text ++ others) = literals.map Literal.value := by
  induction literals with
  | nil =>
      cases others with
      | nil => rfl
      | cons arg others =>
          rw [List.map_nil, List.nil_append, leadingLiterals, literal?_eq_none_iff.2 (h arg rfl),
            List.map_nil]
  | cons l literals ih =>
      rw [List.map_cons, List.cons_append, leadingLiterals, literal?_text, List.map_cons, ih]

end Arguments

theorem toList_markedText (args : List (List Char)) (tail : String) :
    (markedText args tail).toList =
      marker.toList ++ (List.intercalate [','] args ++ '>' :: tail.toList) := by
  simp [markedText]

/-- The marker is found where it was written, since it ends in its only bracket. -/
theorem fromStem?_markedText {before : String} (h : ¬marker.toList <:+: before.toList)
    (args : List (List Char)) (tail : String) :
    fromStem? marker.toList (before ++ markedText args tail).toList =
      some (markedText args tail).toList := by
  have hmarker : marker.toList = "cl::sycl::xilinx::reqd_work_group_size".toList ++ ['<'] := by
    decide
  rw [String.toList_append, toList_markedText]
  rw [hmarker] at h ⊢
  exact fromStem?_append (by decide) h _

/-- Reading the size of an annotated kernel gives back the integers that the list begins with if
there are three, and fails with their number if not. -/
theorem ofDemangled_marked (kernel before tail : String) (literals : List Literal)
    (others : List (List Char)) (hbefore : ¬marker.toList <:+: before.toList)
    (hothers : ∀ arg ∈ others, Bracketed false arg)
    (hfirst : ∀ arg ∈ others.head?, ∀ l : Literal, l.text ≠ arg)
    (hne : literals.map Literal.text ++ others ≠ []) :
    let marked := markedText (literals.map Literal.text ++ others) tail
    ofDemangled kernel (before ++ marked) =
      match literals with
      | [x, y, z] => .ok (some ⟨x.value, y.value, z.value⟩)
      | _ => .error (.workGroupSize kernel marked literals.length) := by
  intro marked
  have hargs : ∀ arg ∈ literals.map Literal.text ++ others, Bracketed false arg := by
    intro arg harg
    rcases List.mem_append.1 harg with harg | harg
    · obtain ⟨l, -, rfl⟩ := List.mem_map.1 harg
      exact l.bracketed
    · exact hothers arg harg
  have hsizes : leadingLiterals (templateArgs 0 (marked.toList.drop marker.length)) =
      literals.map Literal.value := by
    rw [toList_markedText, ← String.length_toList, List.drop_left,
      templateArgs_intercalate hne hargs, leadingLiterals_append literals hfirst]
  rw [ofDemangled, fromStem?_markedText hbefore]
  dsimp only
  rw [hsizes, String.ofList_toList]
  rcases literals with _ | ⟨x, _ | ⟨y, _ | ⟨z, _ | ⟨w, literals⟩⟩⟩⟩ <;> simp [marked]

namespace vectorSize

def sizes : List Literal :=
  [⟨[], 0, 4, ['u'], [], by simp, by decide, by decide, by simp⟩,
    ⟨[' '], 1, 2, [], ['\u3000'], by simp; decide, by decide, by decide, by simp; decide⟩,
    ⟨[], 0, 1, ['U', 'l', 'L'], [], by simp, by decide, by decide, by simp⟩]

/-- A template argument with arguments of its own. -/
def vector : List Char := ['V', '<', '7', ',', 'b', '>']

end vectorSize

open vectorSize in
theorem vectorSize_ofDemangled :
    ofDemangled "k" "void é<cl::sycl::xilinx::reqd_work_group_size<4u, 02\u3000,1UlL,V<7,b>>, 3>" =
        .ok (some ⟨4, 2, 1⟩) ∧
      ofDemangled "k" "cl::sycl::xilinx::reqd_work_group_size<V<7,b>> 5" =
        .error (.workGroupSize "k" "cl::sycl::xilinx::reqd_work_group_size<V<7,b>> 5" 0) := by
  have hinner : Bracketed true ['7', ',', 'b'] := by
    refine .char ?_ ?_ ?_ (.char ?_ ?_ ?_ (.char ?_ ?_ ?_ .nil)) <;> decide
  have hvector : ∀ arg ∈ [vector], Bracketed false arg := by
    intro arg harg
    rw [List.mem_singleton.1 harg]
    exact .char (by decide) (by decide) (by decide) (.nest hinner .nil)
  have hfirst : ∀ arg ∈ [vector].head?, ∀ l : Literal, l.text ≠ arg := by
    intro arg harg
    obtain rfl : vector = arg := Option.some.inj harg
    exact literal?_eq_none_iff.1 (by decide +kernel)
  have hthree := ofDemangled_marked "k" "void é<" ", 3>" sizes [vector] (by decide +kernel) hvector
    hfirst (by simp)
  have hnone := ofDemangled_marked "k" "" " 5" [] [vector] (by decide +kernel) hvector hfirst
    (by simp)
  have htext : "void é<" ++ markedText (sizes.map Literal.text ++ [vector]) ", 3>" =
      "void é<cl::sycl::xilinx::reqd_work_group_size<4u, 02\u3000,1UlL,V<7,b>>, 3>" := by
    decide +kernel
  have htext' : markedText ([].map Literal.text ++ [vector]) " 5" =
      "cl::sycl::xilinx::reqd_work_group_size<V<7,b>> 5" := by
    decide +kernel
  dsimp only at hthree hnone
  rw [htext] at hthree
  rw [String.empty_append, htext'] at hnone
  exact ⟨hthree, hnone⟩

end WorkGroupSize

end KernelIR
