import KernelIR.ParamName
import KernelIR.Proofs.Digits
import Mathlib

/-!
# Names of parameters

Every parameter has a name in the end, and one that had a name before keeps it.  The numbers are
handed out without a look at the names that are there, so that the names are distinct only if no
parameter was called by one of these numbers.
-/

namespace KernelIR

namespace Param

variable {k : Nat} {p : Param} {ps : List Param}

/-- The name of a parameter that has one. -/
def given? (p : Param) : Option String := if p.hasName then p.name else none

def givenNames (ps : List Param) : List String := ps.filterMap given?

theorem numbered_injective : Function.Injective numbered := append_repr_injective "arg_"

theorem hasName_numbered (p : Param) (k : Nat) :
    ({ p with name := some (numbered k) } : Param).hasName = true := by
  simp [hasName, numbered]

theorem exists_given (h : p.hasName = true) : ∃ n, p.name = some n ∧ p.given? = some n := by
  obtain ⟨n, hn, -⟩ := (Option.any_eq_true _ _).1 h
  exact ⟨n, hn, by rw [given?, if_pos h, hn]⟩

theorem map_ty_nameAll (k : Nat) (ps : List Param) :
    (nameAll k ps).map (·.ty) = ps.map (·.ty) := by
  induction ps generalizing k with
  | nil => rfl
  | cons p ps ih =>
      rw [nameAll]
      split_ifs <;> rw [List.map_cons, List.map_cons, ih]

theorem nameAll_eq_self (h : ps.countP (fun p => !p.hasName) = 0) : nameAll k ps = ps := by
  induction ps with
  | nil => rfl
  | cons p ps ih =>
      rw [List.countP_eq_zero, List.forall_mem_cons, ← List.countP_eq_zero] at h
      rw [nameAll, if_pos (by simpa using h.1), ih h.2]

theorem hasName_of_mem_nameAll (h : p ∈ nameAll k ps) : p.hasName = true := by
  induction ps generalizing k with
  | nil => cases h
  | cons q ps ih =>
      rw [nameAll] at h
      split_ifs at h with hq
      · rcases List.mem_cons.1 h with rfl | h
        exacts [hq, ih h]
      · rcases List.mem_cons.1 h with rfl | h
        · exact hasName_numbered q k
        · exact ih h

theorem countP_nameAll (k : Nat) (ps : List Param) :
    (nameAll k ps).countP (fun p => !p.hasName) = 0 :=
  List.countP_eq_zero.2 fun p hp => by simp [hasName_of_mem_nameAll hp]

/-- What a parameter becomes is a matter of its own name and of how many before it have none. -/
theorem getElem?_nameAll (k : Nat) (ps : List Param) (i : Nat) :
    (nameAll k ps)[i]? = ps[i]?.map fun p =>
      if p.hasName then p
      else { p with name := some (numbered (k + (ps.take i).countP fun q => !q.hasName)) } := by
  induction ps generalizing k i with
  | nil => rfl
  | cons p ps ih =>
      rw [nameAll]
      by_cases hp : p.hasName = true
      · rw [if_pos hp]
        cases i with
        | zero => simp [hp]
        | succ i => simp [ih, hp]
      · rw [if_neg hp]
        cases i with
        | zero => simp [hp]
        | succ i => simp [ih, hp, Nat.add_assoc, Nat.add_comm 1]

/-- The names in the end are those that were there and one number for each parameter without. -/
theorem map_name_nameAll_perm (k : Nat) (ps : List Param) :
    ((nameAll k ps).map (·.name)).Perm
      ((givenNames ps ++
        (List.range' k (ps.countP fun p => !p.hasName)).map numbered).map some) := by
  induction ps generalizing k with
  | nil => exact List.Perm.nil
  | cons p ps ih =>
      rw [nameAll]
      by_cases hp : p.hasName = true
      · obtain ⟨n, hname, hgiven⟩ := exists_given hp
        rw [if_pos hp, List.map_cons, hname, givenNames, List.filterMap_cons_some hgiven,
          List.countP_cons_of_neg (by simpa using hp)]
        exact (ih k).cons _
      · have hgiven : p.given? = none := if_neg hp
        rw [if_neg hp, List.map_cons, givenNames, List.filterMap_cons_none hgiven,
          List.countP_cons_of_pos (by simpa using hp), List.range'_succ, List.map_cons,
          List.map_append, List.map_cons]
        refine ((ih (k + 1)).cons _).trans ?_
        rw [List.map_append]
        exact List.perm_middle.symm

/-- The names in the end are distinct exactly if those that were there are, and none of them is a
number that is handed out. -/
theorem nodup_names_nameAll_iff (ps : List Param) :
    ((nameAll 0 ps).map (·.name)).Nodup ↔ (givenNames ps).Nodup ∧
      ∀ k < ps.countP (fun p => !p.hasName), numbered k ∉ givenNames ps := by
  have hnumbers : ((List.range' 0 (ps.countP fun p => !p.hasName)).map numbered).Nodup :=
    List.Nodup.map numbered_injective List.nodup_range'
  rw [(map_name_nameAll_perm 0 ps).nodup_iff, List.nodup_map_iff (Option.some_injective _),
    List.nodup_append', List.disjoint_right]
  simp [hnumbers, List.mem_range']

end Param

namespace Func

/-- The parameters of `f` were named, `count` of them by a number, and `g` is what became of it. -/
structure ParamsNamed (f : Func) (count : Nat) (g : Func) : Prop where
  count : count = f.params.countP fun p => !p.hasName
  length : g.params.length = f.params.length
  named : ∀ p ∈ g.params, p.hasName = true
  kept : ∀ (i : Nat) (p : Param), f.params[i]? = some p → p.hasName = true →
    g.params[i]? = some p
  numbered : ∀ (i : Nat) (p : Param), f.params[i]? = some p → p.hasName = false →
    g.params[i]? = some { p with
      name := some (Param.numbered ((f.params.take i).countP fun q => !q.hasName)) }
  rest : { g with params := f.params } = f
  again : g.nameParams = (0, g)

theorem paramsNamed_nameParams (f : Func) : f.ParamsNamed f.nameParams.1 f.nameParams.2 where
  count := rfl
  length := by simpa [nameParams] using congrArg List.length (Param.map_ty_nameAll 0 f.params)
  named _ hp := Param.hasName_of_mem_nameAll hp
  kept i p hi hp := by simp [nameParams, Param.getElem?_nameAll, hi, hp]
  numbered i p hi hp := by simp [nameParams, Param.getElem?_nameAll, hi, hp]
  rest := rfl
  again := by
    have hnone := Param.countP_nameAll 0 f.params
    simp only [nameParams, hnone, Param.nameAll_eq_self hnone]

/-- Naming the parameters leaves none without a name, changes no name that is there, and has nothing
to do the next time.  The names are distinct exactly if no parameter had one of the numbers that are
handed out. -/
theorem nameParams_distinct_iff (f : Func) (h : (Param.givenNames f.params).Nodup) :
    f.ParamsNamed f.nameParams.1 f.nameParams.2 ∧
      ((f.nameParams.2.params.map (·.name)).Nodup ↔
        ∀ k < f.nameParams.1, Param.numbered k ∉ Param.givenNames f.params) :=
  ⟨f.paramsNamed_nameParams,
    (Param.nodup_names_nameAll_iff f.params).trans (and_iff_right h)⟩

/-- A parameter without a name, one with an empty name, and `given` between them. -/
def paramsAround (given : String) : Func where
  name := "kernel"
  params := [⟨none, .privatePtr⟩, ⟨some given, .int 32⟩, ⟨some "", .privatePtr⟩]
  retTy := .void

theorem paramsAround_distinct :
    (paramsAround "arg_2").ParamsNamed 2 (paramsAround "arg_2").nameParams.2 ∧
      ((paramsAround "arg_2").nameParams.2.params.map (·.name)).Nodup := by
  have h : (Param.givenNames (paramsAround "arg_2").params).Nodup := by decide +kernel
  obtain ⟨hnamed, hiff⟩ := nameParams_distinct_iff (paramsAround "arg_2") h
  exact ⟨hnamed, hiff.2 (by decide +kernel)⟩

/-- The number of the last parameter is the name of the one before. -/
theorem paramsAround_clash : (Param.givenNames (paramsAround "arg_1").params).Nodup ∧
    ¬((paramsAround "arg_1").nameParams.2.params.map (·.name)).Nodup := by
  decide +kernel

end Func

end KernelIR
