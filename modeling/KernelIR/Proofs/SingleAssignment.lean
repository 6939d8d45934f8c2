import KernelIR.Proofs.Verification
import Mathlib

/-!
# What the check of a body decides

The places where a body defines registers, reads operands and names blocks, constructor by
constructor, and what single assignment asks of them.  The check succeeds for exactly the bodies
that are so, and a fault that it reports is there.
-/

namespace KernelIR

theorem duplicate_of_firstRepeatFrom? {α : Type} [DecidableEq α] {seen xs : List α} {x : α}
    (h : firstRepeatFrom? seen xs = some x) : x ∈ seen ∧ x ∈ xs ∨ xs.Duplicate x := by
  induction xs generalizing seen with
  | nil => cases h
  | cons y xs ih =>
      rw [firstRepeatFrom?] at h
      split_ifs at h with hy
      · obtain rfl := Option.some.inj h
        exact Or.inl ⟨hy, List.mem_cons_self⟩
      · rcases ih h with ⟨hseen, hx⟩ | hx
        · rcases List.mem_cons.1 hseen with rfl | hseen
          · exact Or.inr hx.duplicate_cons_self
          · exact Or.inl ⟨hseen, List.mem_cons_of_mem _ hx⟩
        · exact Or.inr (hx.duplicate_cons _)

theorem duplicate_of_firstRepeat? {α : Type} [DecidableEq α] {xs : List α} {x : α}
    (h : firstRepeat? xs = some x) : xs.Duplicate x :=
  (duplicate_of_firstRepeatFrom? h).resolve_left fun hx => List.not_mem_nil hx.1

theorem exists_ne_of_duplicate_filterMap {α β : Type} {g : α → Option β} {xs : List α} {b : β}
    (hxs : xs.Nodup) (h : (xs.filterMap g).Duplicate b) :
    ∃ x ∈ xs, ∃ y ∈ xs, x ≠ y ∧ g x = some b ∧ g y = some b := by
  induction xs with
  | nil => cases h
  | cons a xs ih =>
      obtain ⟨ha, hxs⟩ := List.nodup_cons.1 hxs
      have hrest (h : (xs.filterMap g).Duplicate b) :
          ∃ x ∈ a :: xs, ∃ y ∈ a :: xs, x ≠ y ∧ g x = some b ∧ g y = some b := by
        obtain ⟨x, hx, y, hy, h⟩ := ih hxs h
        exact ⟨x, List.mem_cons_of_mem _ hx, y, List.mem_cons_of_mem _ hy, h⟩
      cases hga : g a with
      | none =>
          rw [List.filterMap_cons_none hga] at h
          exact hrest h
      | some c =>
          rw [List.filterMap_cons_some hga] at h
          rcases List.duplicate_cons_iff.1 h with ⟨rfl, hc⟩ | h
          · obtain ⟨y, hy, hgy⟩ := List.mem_filterMap.1 hc
            exact ⟨a, List.mem_cons_self, y, List.mem_cons_of_mem _ hy,
              fun heq => ha (heq ▸ hy), hga, hgy⟩
          · exact hrest h

namespace Instr

/-- The operands of an instruction by the places where they stand. -/
inductive Reads (value : Operand) : Instr → Prop
  | lhs {op dest ty rhs} : Reads value (.arith op dest ty value rhs)
  | rhs {op dest ty lhs} : Reads value (.arith op dest ty lhs value)
  | compareLhs {dest rel rhs} : Reads value (.icmp dest rel value rhs)
  | compareRhs {dest rel lhs} : Reads value (.icmp dest rel lhs value)
  | loadAddr {dest ty volatile} : Reads value (.load dest ty value volatile)
  | storeAddr {stored volatile} : Reads value (.store value stored volatile)
  | stored {addr volatile} : Reads value (.store addr value volatile)
  | base {dest ty elemTy indices} : Reads value (.gep dest ty elemTy value indices)
  | index {dest ty elemTy base indices} (h : value ∈ indices) :
      Reads value (.gep dest ty elemTy base indices)
  | callee {dest ty args conv} : Reads value (.call ⟨dest, ty, .indirect value, args, conv⟩)
  | arg {c : Call} (h : value ∈ c.args) : Reads value (.call c)
  | incoming {p : Phi} {label} (h : (label, value) ∈ p.incoming) : Reads value (.phi p)
  | casted {dest kind ty} : Reads value (.cast ⟨dest, kind, value, ty⟩)

inductive Defines (r : Reg) : Instr → Prop
  | arith {op ty lhs rhs} : Defines r (.arith op r ty lhs rhs)
  | icmp {rel lhs rhs} : Defines r (.icmp r rel lhs rhs)
  | load {ty addr volatile} : Defines r (.load r ty addr volatile)
  | gep {ty elemTy base indices} : Defines r (.gep r ty elemTy base indices)
  | call {ty callee args conv} : Defines r (.call ⟨some r, ty, callee, args, conv⟩)
  | phi {ty incoming} : Defines r (.phi ⟨r, ty, incoming⟩)
  | cast {kind value ty} : Defines r (.cast ⟨r, kind, value, ty⟩)

theorem mem_operands_iff {value : Operand} {i : Instr} : value ∈ i.operands ↔ i.Reads value := by
  constructor
  · intro h
    cases i with
    | arith op dest ty lhs rhs =>
        rcases List.mem_pair.1 h with rfl | rfl
        exacts [.lhs, .rhs]
    | icmp dest rel lhs rhs =>
        rcases List.mem_pair.1 h with rfl | rfl
        exacts [.compareLhs, .compareRhs]
    | load dest ty addr volatile =>
        obtain rfl := List.mem_singleton.1 h
        exact .loadAddr
    | store addr stored volatile =>
        rcases List.mem_pair.1 h with rfl | rfl
        exacts [.storeAddr, .stored]
    | gep dest ty elemTy base indices =>
        rcases List.mem_cons.1 h with rfl | h
        exacts [.base, .index h]
    | call c =>
        rcases List.mem_append.1 h with h | h
        · obtain ⟨dest, ty, callee, args, conv⟩ := c
          cases callee with
          | indirect target =>
              obtain rfl := List.mem_singleton.1 h
              exact .callee
          | direct f | cast f => exact absurd h List.not_mem_nil
        · exact .arg h
    | phi p =>
        obtain ⟨⟨label, value⟩, he, rfl⟩ := List.mem_map.1 h
        exact .incoming he
    | cast c =>
        obtain rfl := List.mem_singleton.1 h
        exact .casted
  · rintro (_ | _ | _ | _ | _ | _ | _ | _ | h | _ | h | h | _)
    case incoming label => exact List.mem_map.2 ⟨_, h, rfl⟩
    all_goals simp_all [operands, Callee.operands]

theorem dest?_eq_some_iff {r : Reg} {i : Instr} : i.dest? = some r ↔ i.Defines r := by
  constructor
  · intro h
    cases i with
    | store addr stored volatile => cases h
    | call c =>
        obtain ⟨dest, ty, callee, args, conv⟩ := c
        obtain rfl : dest = some r := h
        exact .call
    | _ =>
        obtain rfl := Option.some.inj h
        constructor
  · rintro (_ | _ | _ | _ | _ | _ | _) <;> rfl

/-- The blocks that a phi names. -/
inductive Names (label : Label) : Instr → Prop
  | incoming {p : Phi} {value} (h : (label, value) ∈ p.incoming) : Names label (.phi p)

theorem mem_phiLabels_iff {label : Label} {i : Instr} : label ∈ i.phiLabels ↔ i.Names label := by
  constructor
  · intro h
    cases i with
    | phi p =>
        obtain ⟨⟨label, value⟩, he, rfl⟩ := List.mem_map.1 h
        exact .incoming he
    | _ => exact absurd h List.not_mem_nil
  · rintro ⟨h⟩
    exact List.mem_map.2 ⟨_, h, rfl⟩

end Instr

namespace Terminator

inductive Reads (value : Operand) : Terminator → Prop
  | cond {ifTrue ifFalse} : Reads value (.branch value ifTrue ifFalse)
  | ret : Reads value (.ret (some value))

inductive Names (label : Label) : Terminator → Prop
  | ifTrue {cond ifFalse} : Names label (.branch cond label ifFalse)
  | ifFalse {cond ifTrue} : Names label (.branch cond ifTrue label)
  | jump : Names label (.jump label)

theorem mem_operands_iff {value : Operand} {t : Terminator} :
    value ∈ t.operands ↔ t.Reads value := by
  constructor
  · intro h
    cases t with
    | branch cond ifTrue ifFalse =>
        obtain rfl := List.mem_singleton.1 h
        exact .cond
    | ret returned =>
        obtain rfl := Option.mem_toList.1 h
        exact .ret
    | jump _ | unreachable => exact absurd h List.not_mem_nil
  · rintro (_ | _) <;> exact List.mem_singleton.2 rfl

theorem mem_targets_iff {label : Label} {t : Terminator} :
    label ∈ t.targets ↔ t.Names label := by
  constructor
  · intro h
    cases t with
    | branch cond ifTrue ifFalse =>
        rcases List.mem_pair.1 h with rfl | rfl
        exacts [.ifTrue, .ifFalse]
    | jump target =>
        obtain rfl := List.mem_singleton.1 h
        exact .jump
    | ret _ | unreachable => exact absurd h List.not_mem_nil
  · rintro (_ | _ | _) <;> simp [targets]

end Terminator

namespace Func

/-- Some instruction of the body is as `p` says, or the end of some block as `q` says. -/
inductive Contains (f : Func) (p : Instr → Prop) (q : Terminator → Prop) : Prop
  | instr {pos i} (hi : f.instr? pos = some i) (h : p i)
  | terminator {label b} (hb : f.body.find? label = some b) (h : q b.terminator)

def Reads (f : Func) (value : Operand) : Prop :=
  f.Contains (Instr.Reads value) (Terminator.Reads value)

def Names (f : Func) (label : Label) : Prop :=
  f.Contains (Instr.Names label) (Terminator.Names label)

def DefinesAt (f : Func) (pos : Position) (r : Reg) : Prop :=
  ∃ i, f.instr? pos = some i ∧ i.Defines r

/-- What is asked of a body that has blocks. -/
structure SingleAssignment (f : Func) : Prop where
  entry : .entry ∈ f.body.keys
  unique : ∀ r pos pos', f.DefinesAt pos r → f.DefinesAt pos' r → pos = pos'
  defined : ∀ r, f.Reads (.reg r) → ∃ pos, f.DefinesAt pos r
  passed : ∀ index, f.Reads (.arg index) → index < f.params.length
  present : ∀ label, f.Names label → label ∈ f.body.keys

/-- The reports that are true of a function. -/
inductive Violates (f : Func) : IRError → Prop
  | missingEntry {label} (h : label ∈ f.body.keys) (hentry : .entry ∉ f.body.keys) :
      Violates f (.missingEntry f.name)
  | duplicateDef {r pos pos'} (hne : pos ≠ pos') (h : f.DefinesAt pos r)
      (h' : f.DefinesAt pos' r) : Violates f (.duplicateDef f.name r)
  | undefinedReg {r} (h : f.Reads (.reg r)) (hdef : ∀ pos, ¬f.DefinesAt pos r) :
      Violates f (.undefinedReg f.name r)
  | undefinedArg {index} (h : f.Reads (.arg index)) (hle : f.params.length ≤ index) :
      Violates f (.undefinedArg f.name index f.params.length)
  | undefinedBlock {label} (h : f.Names label) (hmem : label ∉ f.body.keys) :
      Violates f (.undefinedBlock f.name label)

variable {f : Func}

theorem isDeclaration_eq_true_iff : f.isDeclaration = true ↔ f.body.entries = [] := by
  rw [isDeclaration, OrderedMap.isEmpty, List.isEmpty_iff]

theorem contains_iff {p : Instr → Prop} {q : Terminator → Prop} :
    f.Contains p q ↔ ∃ label b, f.body.find? label = some b ∧
      ((∃ i ∈ b.instrs, p i) ∨ q b.terminator) := by
  constructor
  · rintro (⟨hi, h⟩ | ⟨hb, h⟩)
    · obtain ⟨b, hb, hi⟩ := instr?_eq_some_iff.1 hi
      exact ⟨_, b, hb, Or.inl ⟨_, List.mem_of_getElem? hi, h⟩⟩
    · exact ⟨_, _, hb, Or.inr h⟩
  · rintro ⟨label, b, hb, ⟨i, hi, h⟩ | h⟩
    · obtain ⟨n, hn⟩ := List.mem_iff_getElem?.1 hi
      have hpos : f.instr? ⟨label, n⟩ = some i := instr?_eq_some_iff.2 ⟨b, hb, hn⟩
      exact .instr hpos h
    · exact .terminator hb h

theorem reads_iff {value : Operand} :
    f.Reads value ↔ ∃ label b, f.body.find? label = some b ∧ value ∈ b.operands := by
  simp only [Reads, contains_iff, Block.operands, List.mem_append, List.mem_flatMap,
    Instr.mem_operands_iff, Terminator.mem_operands_iff]

theorem names_iff {label : Label} :
    f.Names label ↔ ∃ l b, f.body.find? l = some b ∧
      label ∈ b.terminator.targets ++ b.phiLabels := by
  simp only [Names, contains_iff, Block.phiLabels, List.mem_append, List.mem_flatMap,
    Instr.mem_phiLabels_iff, Terminator.mem_targets_iff, or_comm]

theorem mem_dests_iff_definesAt {r : Reg} : r ∈ f.dests ↔ ∃ pos, f.DefinesAt pos r := by
  simp only [dests_eq, List.mem_filterMap, Prod.exists, mem_instrs_iff, ← instr?_eq_some_iff,
    Instr.dest?_eq_some_iff, DefinesAt]

theorem nodup_instrs (f : Func) : f.instrs.Nodup := by
  refine List.nodup_flatMap.2 ⟨fun e _ => ?_, f.body.sorted.imp fun {e e'} hlt => ?_⟩
  · have hzip : e.2.instrs.zipIdx.Nodup := .of_map Prod.snd (by
      rw [List.zipIdx_map_snd]
      exact List.nodup_range')
    exact hzip.map fun x y h => by
      cases x; cases y; cases h; rfl
  · refine List.disjoint_left.2 fun x hx hx' => ?_
    obtain ⟨y, hy, rfl⟩ := List.mem_map.1 hx
    obtain ⟨y', hy', heq⟩ := List.mem_map.1 hx'
    obtain ⟨hlabel, -⟩ := Position.mk.inj (Prod.mk.inj heq).1
    simp [hlabel, Std.ReflCmp.compare_self] at hlt

theorem exists_ne_of_duplicate_dests {r : Reg} (h : f.dests.Duplicate r) :
    ∃ pos pos', pos ≠ pos' ∧ f.DefinesAt pos r ∧ f.DefinesAt pos' r := by
  rw [dests_eq] at h
  obtain ⟨⟨pos, i⟩, hi, ⟨pos', i'⟩, hi', hne, hr, hr'⟩ :=
    exists_ne_of_duplicate_filterMap f.nodup_instrs h
  have hi := instr?_eq_some_iff.2 (mem_instrs_iff.1 hi)
  have hi' := instr?_eq_some_iff.2 (mem_instrs_iff.1 hi')
  refine ⟨pos, pos', ?_, ⟨i, hi, Instr.dest?_eq_some_iff.1 hr⟩,
    ⟨i', hi', Instr.dest?_eq_some_iff.1 hr'⟩⟩
  rintro rfl
  obtain rfl := Option.some.inj (hi.symm.trans hi')
  exact hne rfl

theorem Violates.of_operandFault? {value : Operand} {e : IRError} (hread : f.Reads value)
    (h : f.operandFault? value = some e) : f.Violates e := by
  cases value with
  | reg r =>
      rw [operandFault?] at h
      split_ifs at h with hr
      obtain rfl := Option.some.inj h
      exact .undefinedReg hread fun pos hpos => hr (mem_dests_iff_definesAt.2 ⟨pos, hpos⟩)
  | arg index =>
      rw [operandFault?] at h
      split_ifs at h with hlt
      obtain rfl := Option.some.inj h
      exact .undefinedArg hread (Nat.le_of_not_lt hlt)
  | _ => cases h

theorem Violates.of_labelFault? {label : Label} {e : IRError} (hname : f.Names label)
    (h : f.labelFault? label = some e) : f.Violates e := by
  rw [labelFault?] at h
  split_ifs at h with hc
  obtain rfl := Option.some.inj h
  exact .undefinedBlock hname fun hmem => hc (OrderedMap.contains_iff.2 hmem)

theorem Violates.of_blockFault? {label : Label} {b : Block} {e : IRError}
    (hb : f.body.find? label = some b) (h : f.blockFault? b = some e) : f.Violates e := by
  rcases Option.or_eq_some_iff.1 h with h | ⟨-, h⟩
  · obtain ⟨value, hvalue, h⟩ := List.exists_of_findSome?_eq_some h
    exact .of_operandFault? (reads_iff.2 ⟨label, b, hb, hvalue⟩) h
  · obtain ⟨target, htarget, h⟩ := List.exists_of_findSome?_eq_some h
    exact .of_labelFault? (names_iff.2 ⟨label, b, hb, htarget⟩) h

theorem Violates.of_ssaFault? {e : IRError} (h : f.ssaFault? = some e) : f.Violates e := by
  rw [ssaFault?] at h
  split_ifs at h with hdecl hentry
  · obtain rfl := Option.some.inj h
    obtain ⟨e, he⟩ := List.exists_mem_of_ne_nil _ (mt isDeclaration_eq_true_iff.2 hdecl)
    refine .missingEntry (List.mem_map_of_mem he) fun hmem => ?_
    rw [OrderedMap.contains_iff.2 hmem] at hentry
    cases hentry
  · rcases Option.or_eq_some_iff.1 h with h | ⟨-, h⟩
    · obtain ⟨r, hr, rfl⟩ := Option.map_eq_some_iff.1 h
      obtain ⟨pos, pos', hne, h, h'⟩ := exists_ne_of_duplicate_dests (duplicate_of_firstRepeat? hr)
      exact .duplicateDef hne h h'
    · obtain ⟨b, hb, h⟩ := List.exists_of_findSome?_eq_some h
      obtain ⟨⟨label, b⟩, he, rfl⟩ := List.mem_map.1 hb
      exact .of_blockFault? (find?_of_mem_entries he) h

theorem Violates.isDeclaration_eq_false {e : IRError} (h : f.Violates e) :
    f.isDeclaration = false := by
  have hdefines {pos r} (h : f.DefinesAt pos r) : f.isDeclaration = false := by
    obtain ⟨i, hi, -⟩ := h
    obtain ⟨b, hb, -⟩ := instr?_eq_some_iff.1 hi
    exact isDeclaration_of_find? hb
  have hcontains {p q} (h : f.Contains p q) : f.isDeclaration = false := by
    obtain ⟨label, b, hb, -⟩ := contains_iff.1 h
    exact isDeclaration_of_find? hb
  cases h with
  | missingEntry h =>
      obtain ⟨b, hb⟩ := Option.isSome_iff_exists.1 (OrderedMap.mem_keys_iff.1 h)
      exact isDeclaration_of_find? hb
  | duplicateDef _ h _ => exact hdefines h
  | undefinedReg h _ | undefinedArg h _ | undefinedBlock h _ => exact hcontains h

theorem Violates.not_singleAssignment {e : IRError} (h : f.Violates e) : ¬f.SingleAssignment := by
  intro hf
  cases h with
  | missingEntry _ hentry => exact hentry hf.entry
  | duplicateDef hne h h' => exact hne (hf.unique _ _ _ h h')
  | undefinedReg h hdef =>
      obtain ⟨pos, hpos⟩ := hf.defined _ h
      exact hdef pos hpos
  | undefinedArg h hle => exact (hf.passed _ h).not_ge hle
  | undefinedBlock h hmem => exact hmem (hf.present _ h)

theorem Checked.singleAssignment (h : f.Checked) (hdef : f.isDeclaration = false) :
    f.SingleAssignment where
  entry := OrderedMap.contains_iff.1 (h.entry hdef)
  unique r pos pos' := by
    rintro ⟨i, hi, hr⟩ ⟨i', hi', hr'⟩
    exact h.def_unique hi (Instr.dest?_eq_some_iff.2 hr) hi' (Instr.dest?_eq_some_iff.2 hr')
  defined r hread := by
    obtain ⟨label, b, hb, hmem⟩ := reads_iff.1 hread
    have hfault := h.reads label b hb _ hmem
    rw [operandFault?] at hfault
    split_ifs at hfault with hr
    exact mem_dests_iff_definesAt.1 hr
  passed index hread := by
    obtain ⟨label, b, hb, hmem⟩ := reads_iff.1 hread
    exact h.lt_params hb hmem
  present label hname := by
    obtain ⟨l, b, hb, hmem⟩ := names_iff.1 hname
    exact OrderedMap.contains_iff.1 (h.labels l b hb label hmem)

theorem checkSSA_eq_error_iff {e : IRError} : f.checkSSA = .error e ↔ f.ssaFault? = some e := by
  cases h : f.ssaFault? <;> simp [checkSSA, h]

/-- The check accepts declarations and the bodies in single-assignment form, and what it reports of
any other body is so. -/
theorem checkSSA_decides (f : Func) :
    (f.checkSSA = .ok () ↔ f.body.entries = [] ∨ f.SingleAssignment) ∧
      ∀ e, f.checkSSA = .error e → f.Violates e := by
  have hviolates : ∀ e, f.checkSSA = .error e → f.Violates e := fun e he =>
    .of_ssaFault? (checkSSA_eq_error_iff.1 he)
  refine ⟨⟨fun hok => ?_, fun hform => ?_⟩, hviolates⟩
  · have hchecked := Checked.of_checkSSA hok
    cases hdecl : f.isDeclaration with
    | true => exact Or.inl (isDeclaration_eq_true_iff.1 hdecl)
    | false => exact Or.inr (hchecked.singleAssignment hdecl)
  · cases hcheck : f.checkSSA with
    | ok => rfl
    | error e =>
        have he := hviolates e hcheck
        rcases hform with hnil | hform
        · have hdecl := he.isDeclaration_eq_false
          rw [isDeclaration_eq_true_iff.2 hnil] at hdecl
          cases hdecl
        · exact absurd hform he.not_singleAssignment

/-- A loop that calls through a register on every turn. -/
def callsThrough (r : Reg) : Func where
  name := "f"
  params := [⟨none, .privatePtr⟩]
  retTy := .void
  body := .ofList [
    (.entry, ⟨[], .jump 1⟩),
    (1, ⟨[.phi ⟨0, .privatePtr, [(.entry, .arg 0), (1, .reg 0)]⟩,
      .call ⟨none, .void, .indirect (.reg r), [], .c⟩], .jump 1⟩)]

theorem callsThrough_checkSSA : (callsThrough 0).SingleAssignment ∧
    (callsThrough 7).Violates (.undefinedReg "f" 7) := by
  have hok : (callsThrough 0).checkSSA = .ok () := by decide +kernel
  have hbody : (callsThrough 0).body.entries ≠ [] := by decide +kernel
  have herror : (callsThrough 7).checkSSA = .error (.undefinedReg "f" 7) := by decide +kernel
  exact ⟨((checkSSA_decides (callsThrough 0)).1.1 hok).resolve_left hbody,
    (checkSSA_decides (callsThrough 7)).2 _ herror⟩

end Func

end KernelIR
