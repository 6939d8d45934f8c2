/-!
# Ordered maps

Association lists whose keys strictly increase.  The order is a field of the type: listing a map
lists its entries, and a map is determined by its look-ups.
-/

namespace KernelIR

universe u v w

/-- Finitely many entries, in increasing order of their keys. -/
structure OrderedMap (κ : Type u) (α : Type v) [Ord κ] where
  entries : List (κ × α)
  sorted : entries.Pairwise fun a b => compare a.1 b.1 = .lt
  deriving DecidableEq

namespace OrderedMap

variable {κ : Type u} {α : Type v} {β : Type w} [Ord κ]

@[ext] theorem ext {m n : OrderedMap κ α} (h : m.entries = n.entries) : m = n := by
  cases m; cases n; cases h; rfl

def empty : OrderedMap κ α := ⟨[], .nil⟩

instance : Inhabited (OrderedMap κ α) := ⟨empty⟩

def keys (m : OrderedMap κ α) : List κ := m.entries.map (·.1)

def values (m : OrderedMap κ α) : List α := m.entries.map (·.2)

def isEmpty (m : OrderedMap κ α) : Bool := m.entries.isEmpty

def find? (m : OrderedMap κ α) (k : κ) : Option α :=
  (m.entries.find? fun e => compare e.1 k == .eq).map (·.2)

def contains (m : OrderedMap κ α) (k : κ) : Bool := (m.find? k).isSome

def lastKey? (m : OrderedMap κ α) : Option κ := m.entries.getLast?.map (·.1)

def mapWithKey (f : κ → α → β) (m : OrderedMap κ α) : OrderedMap κ β where
  entries := m.entries.map fun e => (e.1, f e.1 e.2)
  sorted := by simpa [List.pairwise_map] using m.sorted

def map (f : α → β) (m : OrderedMap κ α) : OrderedMap κ β := m.mapWithKey fun _ => f

def modify (m : OrderedMap κ α) (k : κ) (f : α → α) : OrderedMap κ α :=
  m.mapWithKey fun k' v => if compare k' k == .eq then f v else v

def erase (m : OrderedMap κ α) (k : κ) : OrderedMap κ α where
  entries := m.entries.filter fun e => compare e.1 k != .eq
  sorted := m.sorted.filter _

@[simp] theorem entries_empty : (empty : OrderedMap κ α).entries = [] := rfl

@[simp] theorem find?_empty (k : κ) : (empty : OrderedMap κ α).find? k = none := rfl

@[simp] theorem entries_mapWithKey (f : κ → α → β) (m : OrderedMap κ α) :
    (m.mapWithKey f).entries = m.entries.map fun e => (e.1, f e.1 e.2) := rfl

@[simp] theorem entries_erase (m : OrderedMap κ α) (k : κ) :
    (m.erase k).entries = m.entries.filter fun e => compare e.1 k != .eq := rfl

@[simp] theorem keys_mapWithKey (f : κ → α → β) (m : OrderedMap κ α) :
    (m.mapWithKey f).keys = m.keys := by
  simp [keys]

@[simp] theorem keys_map (f : α → β) (m : OrderedMap κ α) : (m.map f).keys = m.keys :=
  keys_mapWithKey _ m

@[simp] theorem keys_modify (m : OrderedMap κ α) (k : κ) (f : α → α) :
    (m.modify k f).keys = m.keys :=
  keys_mapWithKey _ m

section Lookup

variable [Std.LawfulEqOrd κ]

theorem nodup_entries (m : OrderedMap κ α) : m.entries.Nodup :=
  m.sorted.imp fun {a b} hlt heq => by
    subst heq
    simp [Std.ReflCmp.compare_self] at hlt

theorem mem_entries_iff {m : OrderedMap κ α} {k : κ} {v : α} :
    (k, v) ∈ m.entries ↔ m.find? k = some v := by
  obtain ⟨es, hs⟩ := m
  simp only [find?]
  induction es with
  | nil => simp
  | cons e es ih =>
    obtain ⟨he, hs⟩ := List.pairwise_cons.1 hs
    specialize ih hs
    rw [List.find?_cons]
    cases hc : compare e.1 k == .eq with
    | true =>
      obtain rfl := Std.LawfulEqCmp.eq_of_compare (eq_of_beq hc)
      have : (e.1, v) ∉ es := fun hv => by
        have := he _ hv
        simp [Std.ReflCmp.compare_self] at this
      simp only [List.mem_cons, this, or_false, Option.map_some, Option.some.injEq]
      constructor
      · rintro h; rw [← h]
      · rintro rfl; rfl
    | false =>
      rw [← ih, List.mem_cons, or_iff_right]
      rintro rfl
      simp [Std.ReflCmp.compare_self] at hc

theorem mem_keys_iff {m : OrderedMap κ α} {k : κ} : k ∈ m.keys ↔ (m.find? k).isSome = true := by
  simp only [keys, List.mem_map, Option.isSome_iff_exists, ← mem_entries_iff]
  constructor
  · rintro ⟨e, he, rfl⟩; exact ⟨e.2, he⟩
  · rintro ⟨v, hv⟩; exact ⟨(k, v), hv, rfl⟩

theorem contains_iff {m : OrderedMap κ α} {k : κ} : m.contains k = true ↔ k ∈ m.keys :=
  mem_keys_iff.symm

@[simp] theorem find?_erase_self (m : OrderedMap κ α) (k : κ) : (m.erase k).find? k = none := by
  refine Option.ext fun w => ?_
  rw [← mem_entries_iff]
  simp [Std.ReflCmp.compare_self]

theorem find?_erase_of_ne (m : OrderedMap κ α) {k k' : κ} (h : k' ≠ k) :
    (m.erase k).find? k' = m.find? k' := by
  have hc : compare k' k ≠ .eq := fun heq => h (Std.LawfulEqCmp.eq_of_compare heq)
  refine Option.ext fun w => ?_
  rw [← mem_entries_iff, ← mem_entries_iff]
  simp [hc]

@[simp] theorem find?_mapWithKey (f : κ → α → β) (m : OrderedMap κ α) (k : κ) :
    (m.mapWithKey f).find? k = (m.find? k).map (f k) := by
  refine Option.ext fun w => ?_
  rw [← mem_entries_iff, entries_mapWithKey, List.mem_map, Option.map_eq_some_iff]
  simp only [← mem_entries_iff]
  constructor
  · rintro ⟨e, he, h⟩
    cases h
    exact ⟨e.2, he, rfl⟩
  · rintro ⟨v, hv, rfl⟩
    exact ⟨(k, v), hv, rfl⟩

@[simp] theorem find?_map (f : α → β) (m : OrderedMap κ α) (k : κ) :
    (m.map f).find? k = (m.find? k).map f :=
  find?_mapWithKey _ m k

@[simp] theorem find?_modify_self (m : OrderedMap κ α) (k : κ) (f : α → α) :
    (m.modify k f).find? k = (m.find? k).map f := by
  simp [modify, Std.ReflCmp.compare_self]

theorem find?_modify_of_ne (m : OrderedMap κ α) {k k' : κ} (h : k' ≠ k) (f : α → α) :
    (m.modify k f).find? k' = m.find? k' := by
  have hc : compare k' k ≠ .eq := fun heq => h (Std.LawfulEqCmp.eq_of_compare heq)
  simp [modify, hc]

end Lookup

/-- Puts `v` under `k` in a list of entries with increasing keys. -/
def insertEntry (k : κ) (v : α) : List (κ × α) → List (κ × α)
  | [] => [(k, v)]
  | (k', v') :: rest =>
    match compare k k' with
    | .lt => (k, v) :: (k', v') :: rest
    | .eq => (k, v) :: rest
    | .gt => (k', v') :: insertEntry k v rest

theorem key_of_mem_insertEntry {k : κ} {v : α} {es : List (κ × α)} {e : κ × α}
    (h : e ∈ insertEntry k v es) : e.1 = k ∨ e ∈ es := by
  induction es with
  | nil => simp [insertEntry] at h; simp [h]
  | cons a rest ih =>
    obtain ⟨k', v'⟩ := a
    simp only [insertEntry] at h
    split at h <;> simp only [List.mem_cons] at h ⊢ <;> grind

variable [Std.TransOrd κ] [Std.LawfulEqOrd κ]

theorem insertEntry_sorted (k : κ) (v : α) {es : List (κ × α)}
    (h : es.Pairwise fun a b => compare a.1 b.1 = .lt) :
    (insertEntry k v es).Pairwise fun a b => compare a.1 b.1 = .lt := by
  induction es with
  | nil => simp [insertEntry]
  | cons a rest ih =>
    obtain ⟨k', v'⟩ := a
    obtain ⟨ha, hr⟩ := List.pairwise_cons.1 h
    simp only [insertEntry]
    split
    case h_1 hlt =>
      refine List.pairwise_cons.2 ⟨fun e he => ?_, h⟩
      rcases List.mem_cons.1 he with rfl | he
      · exact hlt
      · exact Std.TransCmp.lt_trans hlt (ha e he)
    case h_2 heq =>
      rw [Std.LawfulEqCmp.eq_of_compare heq]
      exact List.pairwise_cons.2 ⟨ha, hr⟩
    case h_3 hgt =>
      refine List.pairwise_cons.2 ⟨fun e he => ?_, ih hr⟩
      rcases key_of_mem_insertEntry he with rfl | he
      · exact Std.OrientedCmp.lt_of_gt hgt
      · exact ha e he

def insert (m : OrderedMap κ α) (k : κ) (v : α) : OrderedMap κ α :=
  ⟨insertEntry k v m.entries, insertEntry_sorted k v m.sorted⟩

/-- The map of a list of entries; of two entries with one key the later wins. -/
def ofList (es : List (κ × α)) : OrderedMap κ α :=
  es.foldl (fun m e => m.insert e.1 e.2) empty

@[simp] theorem entries_insert (m : OrderedMap κ α) (k : κ) (v : α) :
    (m.insert k v).entries = insertEntry k v m.entries := rfl

theorem mem_insertEntry_iff {k : κ} {v : α} {es : List (κ × α)}
    (hs : es.Pairwise fun a b => compare a.1 b.1 = .lt) {e : κ × α} :
    e ∈ insertEntry k v es ↔ e = (k, v) ∨ e ∈ es ∧ e.1 ≠ k := by
  induction es with
  | nil => simp [insertEntry]
  | cons a rest ih =>
    obtain ⟨k', v'⟩ := a
    obtain ⟨ha, hr⟩ := List.pairwise_cons.1 hs
    have hne : ∀ b ∈ rest, b.1 ≠ k' := fun b hb h => by
      have := ha b hb
      simp [h, Std.ReflCmp.compare_self] at this
    simp only [insertEntry]
    split
    case h_1 hlt =>
      have h : ∀ b ∈ (k', v') :: rest, b.1 ≠ k := fun b hb h => by
        subst h
        rcases List.mem_cons.1 hb with rfl | hb
        · simp [Std.ReflCmp.compare_self] at hlt
        · have := Std.TransCmp.lt_trans hlt (ha b hb)
          simp [Std.ReflCmp.compare_self] at this
      grind
    case h_2 heq =>
      obtain rfl := Std.LawfulEqCmp.eq_of_compare heq
      grind
    case h_3 hgt =>
      have : k' ≠ k := by
        rintro rfl
        simp [Std.ReflCmp.compare_self] at hgt
      grind

theorem ext_find? {m n : OrderedMap κ α} (h : ∀ k, m.find? k = n.find? k) : m = n := by
  refine ext (List.Perm.eq_of_pairwise (fun a b _ _ hab hba => ?_) m.sorted n.sorted
    ((List.perm_ext_iff_of_nodup m.nodup_entries n.nodup_entries).2 fun e => ?_))
  · have := Std.TransCmp.lt_trans hab hba
    simp [Std.ReflCmp.compare_self] at this
  · rw [mem_entries_iff, mem_entries_iff, h]

@[simp] theorem find?_insert_self (m : OrderedMap κ α) (k : κ) (v : α) :
    (m.insert k v).find? k = some v :=
  mem_entries_iff.1 ((mem_insertEntry_iff m.sorted).2 (.inl rfl))

theorem find?_insert_of_ne (m : OrderedMap κ α) {k k' : κ} (h : k' ≠ k) (v : α) :
    (m.insert k v).find? k' = m.find? k' := by
  refine Option.ext fun w => ?_
  rw [← mem_entries_iff, ← mem_entries_iff, entries_insert, mem_insertEntry_iff m.sorted]
  simp [h]

theorem erase_eq_self {m : OrderedMap κ α} {k : κ} (h : m.find? k = none) : m.erase k = m := by
  refine ext_find? fun k' => ?_
  by_cases hk : k' = k
  · rw [hk, find?_erase_self, h]
  · exact find?_erase_of_ne m hk

/-- Up to their order, the entries after an insertion are the new one and those at other keys. -/
theorem entries_insert_perm (m : OrderedMap κ α) (k : κ) (v : α) :
    (m.insert k v).entries.Perm ((k, v) :: (m.erase k).entries) := by
  have hnot : (k, v) ∉ (m.erase k).entries := by simp [Std.ReflCmp.compare_self]
  refine (List.perm_ext_iff_of_nodup (m.insert k v).nodup_entries
    (List.nodup_cons.2 ⟨hnot, (m.erase k).nodup_entries⟩)).2 fun e => ?_
  have hne : compare e.1 k ≠ .eq ↔ e.1 ≠ k := by
    rw [ne_eq, Std.LawfulEqCmp.compare_eq_iff_eq]
  rw [entries_insert, mem_insertEntry_iff m.sorted, List.mem_cons, entries_erase,
    List.mem_filter, bne_iff_ne, hne]

theorem insert_eq_self {m : OrderedMap κ α} {k : κ} {v : α} (h : m.find? k = some v) :
    m.insert k v = m := by
  refine ext_find? fun k' => ?_
  by_cases hk : k' = k
  · rw [hk, find?_insert_self, h]
  · exact find?_insert_of_ne m hk v

theorem entries_perm_of_find? {m : OrderedMap κ α} {k : κ} {v : α} (h : m.find? k = some v) :
    m.entries.Perm ((k, v) :: (m.erase k).entries) := by
  have hp := m.entries_insert_perm k v
  rwa [insert_eq_self h] at hp

end OrderedMap

end KernelIR
