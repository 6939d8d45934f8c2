/-!
# Arenas

Storage behind generational handles.  A removed value leaves a vacant slot, the slot vacated last
is filled first, and every new occupant has a new version: a handle that was live once and is not
any more never becomes live again.
-/

namespace KernelIR

inductive SymbolKind where
  | function
  | global
  deriving DecidableEq, Inhabited

/-- A reference to slot `idx`, counted from one, while its occupant has version `version`. -/
structure Handle (k : SymbolKind) where
  idx : Nat
  version : Nat
  deriving DecidableEq, Inhabited

abbrev FuncId := Handle .function

abbrev GlobalId := Handle .global

def SymbolKind.handleName : SymbolKind → String
  | .function => "FunctionId"
  | .global => "GlobalId"

/-- The index of a handle that refers to nothing, beyond all slots. -/
def Handle.nullIdx : Nat := UInt32.size - 1

def Handle.text {k : SymbolKind} (h : Handle k) : String :=
  if h.idx = nullIdx then s!"{k.handleName}(null)" else s!"{k.handleName}({h.idx}v{h.version})"

/-- A slot keeps the version of its last occupant when it is vacant. -/
structure Slot (α : Type) where
  version : Nat
  value : Option α
  deriving DecidableEq

/-- The slots in order, and the positions of the vacant ones, the one vacated last in front. -/
structure Arena (k : SymbolKind) (α : Type) where
  slots : List (Slot α)
  free : List Nat
  free_nodup : free.Nodup
  free_vacant : ∀ i ∈ free, ∃ s, slots[i]? = some s ∧ s.value = none
  deriving DecidableEq

namespace Arena

variable {k : SymbolKind} {α : Type}

def empty : Arena k α where
  slots := []
  free := []
  free_nodup := .nil
  free_vacant := by simp

instance : Inhabited (Arena k α) := ⟨empty⟩

def get? (a : Arena k α) (h : Handle k) : Option α :=
  match h.idx with
  | 0 => none
  | i + 1 =>
    match a.slots[i]? with
    | none => none
    | some s => if s.version = h.version then s.value else none

def contains (a : Arena k α) (h : Handle k) : Bool := (a.get? h).isSome

def entries (a : Arena k α) : List (Handle k × α) :=
  a.slots.zipIdx.filterMap fun (s, i) => s.value.map fun v => (⟨i + 1, s.version⟩, v)

def ids (a : Arena k α) : List (Handle k) := a.entries.map (·.1)

def values (a : Arena k α) : List α := a.entries.map (·.2)

def findId? (a : Arena k α) (p : α → Bool) : Option (Handle k) :=
  (a.entries.find? fun e => p e.2).map (·.1)

def map (f : α → α) (a : Arena k α) : Arena k α where
  slots := a.slots.map fun s => ⟨s.version, s.value.map f⟩
  free := a.free
  free_nodup := a.free_nodup
  free_vacant i hi := by
    obtain ⟨s, hs, hv⟩ := a.free_vacant i hi
    exact ⟨⟨s.version, none⟩, by simp [hs, hv], rfl⟩

/-- Applies `f` to the value of `h`; nothing happens to a handle that is not live. -/
def modify (a : Arena k α) (h : Handle k) (f : α → α) : Arena k α where
  slots := a.slots.modify (h.idx - 1) fun s =>
    if h.idx ≠ 0 ∧ s.version = h.version then ⟨s.version, s.value.map f⟩ else s
  free := a.free
  free_nodup := a.free_nodup
  free_vacant i hi := by
    obtain ⟨s, hs, hv⟩ := a.free_vacant i hi
    by_cases hj : h.idx - 1 = i
    · refine ⟨_, by simp [hj, hs]; rfl, ?_⟩
      split <;> simp [hv]
    · exact ⟨s, by simp [hj, hs], hv⟩

def set (a : Arena k α) (h : Handle k) (v : α) : Arena k α := a.modify h fun _ => v

/-- Stores a value: in the slot vacated last, else in a new slot at the end. -/
def insert (a : Arena k α) (v : α) : Handle k × Arena k α :=
  match hf : a.free with
  | [] =>
    (⟨a.slots.length + 1, 1⟩,
      { slots := a.slots ++ [⟨1, some v⟩]
        free := []
        free_nodup := .nil
        free_vacant := by simp })
  | i :: rest =>
    let version := ((a.slots[i]?.map (·.version)).getD 0) + 2
    (⟨i + 1, version⟩,
      { slots := a.slots.set i ⟨version, some v⟩
        free := rest
        free_nodup := (List.nodup_cons.1 (hf ▸ a.free_nodup)).2
        free_vacant := fun j hj => by
          have hij : i ≠ j := by
            rintro rfl
            exact (List.nodup_cons.1 (hf ▸ a.free_nodup)).1 hj
          obtain ⟨s, hs, hv⟩ := a.free_vacant j (hf ▸ List.mem_cons_of_mem i hj)
          exact ⟨s, by simp [hij, hs], hv⟩ })

/-- Vacates the slot of `h`; nothing happens to a handle that is not live. -/
def erase (a : Arena k α) (h : Handle k) : Arena k α :=
  match hi : h.idx with
  | 0 => a
  | i + 1 =>
    match hg : a.get? h with
    | none => a
    | some v =>
      { slots := a.slots.set i ⟨h.version, none⟩
        free := i :: a.free
        free_nodup := List.nodup_cons.2 ⟨fun hmem => by
          obtain ⟨s, hs, hv⟩ := a.free_vacant i hmem
          simp [get?, hi, hs, hv] at hg, a.free_nodup⟩
        free_vacant := fun j hj => by
          have hlt : i < a.slots.length := by
            by_cases hlt : i < a.slots.length
            · exact hlt
            · simp [get?, hi, List.getElem?_eq_none (Nat.le_of_not_lt hlt)] at hg
          by_cases hij : i = j
          · subst hij
            exact ⟨⟨h.version, none⟩, by simp [hlt], rfl⟩
          · obtain ⟨s, hs, hv⟩ := a.free_vacant j (by grind)
            exact ⟨s, by simp [hij, hs], hv⟩ }

def ofList (vs : List α) : Arena k α := vs.foldl (fun a v => (a.insert v).2) empty

@[simp] theorem entries_empty : (empty : Arena k α).entries = [] := rfl

@[simp] theorem get?_empty (h : Handle k) : (empty : Arena k α).get? h = none := by
  simp only [get?, empty]; split <;> simp

theorem mem_entries_iff {a : Arena k α} {h : Handle k} {v : α} :
    (h, v) ∈ a.entries ↔ a.get? h = some v := by
  obtain ⟨idx, version⟩ := h
  simp only [entries, List.mem_filterMap, Option.map_eq_some_iff, Prod.mk.injEq, Handle.mk.injEq]
  cases idx with
  | zero => simp [get?]
  | succ i =>
    simp only [get?, Prod.exists, List.mem_zipIdx_iff_getElem?]
    constructor
    · rintro ⟨s, n, hn, w, hw, ⟨hi, hv⟩, rfl⟩
      obtain rfl : n = i := by omega
      simp [hn, hv, hw]
    · intro h
      split at h
      · simp at h
      · next s hs =>
        split at h
        · next hv => exact ⟨s, i, hs, v, h, ⟨rfl, hv⟩, rfl⟩
        · simp at h

@[simp] theorem get?_map (a : Arena k α) (f : α → α) (h : Handle k) :
    (a.map f).get? h = (a.get? h).map f := by
  obtain ⟨idx, version⟩ := h
  cases idx with
  | zero => simp [get?]
  | succ i =>
    simp only [get?, map, List.getElem?_map]
    cases a.slots[i]? with
    | none => rfl
    | some s => by_cases hv : s.version = version <;> simp [hv]

@[simp] theorem get?_modify_self (a : Arena k α) (h : Handle k) (f : α → α) :
    (a.modify h f).get? h = (a.get? h).map f := by
  obtain ⟨idx, version⟩ := h
  cases idx with
  | zero => simp [get?]
  | succ i =>
    simp only [get?, modify, Nat.add_sub_cancel, List.getElem?_modify_eq]
    cases a.slots[i]? with
    | none => rfl
    | some s => by_cases hv : s.version = version <;> simp [hv]

theorem get?_modify_of_ne (a : Arena k α) {h h' : Handle k} (hne : h' ≠ h) (f : α → α) :
    (a.modify h f).get? h' = a.get? h' := by
  obtain ⟨idx, version⟩ := h
  obtain ⟨idx', version'⟩ := h'
  cases idx' with
  | zero => simp [get?]
  | succ j =>
    cases idx with
    | zero =>
      have hid : ∀ n, a.slots.modify n (fun s => s) = a.slots := fun n => List.modify_id n a.slots
      simp [get?, modify, hid]
    | succ i =>
      by_cases hij : i = j
      · subst hij
        simp only [get?, modify, Nat.add_sub_cancel, List.getElem?_modify_eq]
        cases a.slots[i]? with
        | none => rfl
        | some s => by_cases hv : s.version = version <;> grind
      · simp [get?, modify, hij]

theorem get?_set_of_ne (a : Arena k α) {h h' : Handle k} (hne : h' ≠ h) (v : α) :
    (a.set h v).get? h' = a.get? h' :=
  get?_modify_of_ne a hne _

theorem get?_insert_of_ne (a : Arena k α) (v : α) {h : Handle k} (hne : h ≠ (a.insert v).1) :
    (a.insert v).2.get? h = a.get? h := by
  obtain ⟨idx, version⟩ := h
  cases idx with
  | zero => simp [get?]
  | succ i =>
    simp only [insert] at hne ⊢
    split at hne
    case h_1 hf =>
      rcases Nat.lt_trichotomy i a.slots.length with hlt | rfl | hgt
      · simp [get?, List.getElem?_append_left hlt]
      · have hversion : 1 ≠ version := by grind
        simp [get?, hversion]
      · have hnone : (a.slots ++ [Slot.mk 1 (some v)])[i]? = none :=
          List.getElem?_eq_none (by simp; omega)
        simp [get?, hnone, List.getElem?_eq_none (Nat.le_of_lt hgt)]
    case h_2 j rest hf =>
      by_cases hij : j = i
      · subst hij
        obtain ⟨s, hs, hv⟩ := a.free_vacant j (hf ▸ List.mem_cons_self)
        obtain ⟨hlt, rfl⟩ := List.getElem?_eq_some_iff.1 hs
        have hversion : a.slots[j].version + 2 ≠ version := by grind
        simp [get?, hv, hlt, hversion]
      · simp [get?, hij]

@[simp] theorem get?_insert_self (a : Arena k α) (v : α) :
    (a.insert v).2.get? (a.insert v).1 = some v := by
  simp only [insert]
  split
  case h_1 hf => simp [get?]
  case h_2 j rest hf =>
    obtain ⟨s, hs, hv⟩ := a.free_vacant j (hf ▸ List.mem_cons_self)
    have hlt : j < a.slots.length := by
      by_cases hlt : j < a.slots.length
      · exact hlt
      · simp [List.getElem?_eq_none (Nat.le_of_not_lt hlt)] at hs
    simp [get?, hlt]

@[simp] theorem get?_fst_insert (a : Arena k α) (v : α) : a.get? (a.insert v).1 = none := by
  simp only [insert]
  split
  case h_1 hf => simp [get?]
  case h_2 j rest hf =>
    obtain ⟨s, hs, _⟩ := a.free_vacant j (hf ▸ List.mem_cons_self)
    simp [get?, hs]

@[simp] theorem get?_erase_self (a : Arena k α) (h : Handle k) : (a.erase h).get? h = none := by
  simp only [erase]
  split
  case h_1 h0 => simp [get?, h0]
  case h_2 i hi =>
    split
    case h_1 hg => exact hg
    case h_2 v hg =>
      by_cases hlt : i < a.slots.length <;> simp [get?, hi, hlt]

theorem get?_erase_of_ne (a : Arena k α) {h h' : Handle k} (hne : h' ≠ h) :
    (a.erase h).get? h' = a.get? h' := by
  simp only [erase]
  split
  case h_1 h0 => rfl
  case h_2 i hi =>
    split
    case h_1 hg => rfl
    case h_2 v hg =>
      obtain ⟨idx', version'⟩ := h'
      cases idx' with
      | zero => simp [get?]
      | succ j =>
        by_cases hij : i = j
        · subst hij
          obtain ⟨idx, version⟩ := h
          simp only at hi
          subst hi
          simp only [get?] at hg ⊢
          cases hs : a.slots[i]? with
          | none => simp [hs] at hg
          | some s =>
            simp [hs] at hg
            grind
        · simp [get?, hij]

end Arena

end KernelIR
