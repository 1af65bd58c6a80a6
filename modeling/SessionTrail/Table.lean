/-!
# Tables

A table holds at most one row per key. It is a plain association list: a row that is set again
keeps its place, so the rows stand in the order in which their keys were first set.
-/
namespace SessionTrail

/-- Rows of values with their keys. -/
structure Table (κ α : Type) where
  rows : List (κ × α) := []
deriving DecidableEq, Repr

namespace Table

variable {κ α : Type} [DecidableEq κ]

instance : Inhabited (Table κ α) := ⟨⟨[]⟩⟩

def get? (t : Table κ α) (key : κ) : Option α := (t.rows.find? (·.1 = key)).map (·.2)

def contains (t : Table κ α) (key : κ) : Bool := (t.get? key).isSome

private def setRow (key : κ) (value : α) : List (κ × α) → List (κ × α)
  | [] => [(key, value)]
  | (k, v) :: rest => if k = key then (key, value) :: rest else (k, v) :: setRow key value rest

/-- Set the value of `key`, whether or not it has one. -/
def set (t : Table κ α) (key : κ) (value : α) : Table κ α := ⟨setRow key value t.rows⟩

def erase (t : Table κ α) (key : κ) : Table κ α := ⟨t.rows.filter (·.1 ≠ key)⟩

/-- Change the value of `key`, if it has one. -/
def modify (t : Table κ α) (key : κ) (f : α → α) : Table κ α :=
  match t.get? key with
  | some value => t.set key (f value)
  | none => t

/-- The keys in the order in which they were first set. -/
def keys (t : Table κ α) : List κ := t.rows.map (·.1)

private theorem find?_setRow (rows : List (κ × α)) (key k : κ) (value : α) :
    ((setRow key value rows).find? (·.1 = k)).map (·.2) =
      if k = key then some value else (rows.find? (·.1 = k)).map (·.2) := by
  induction rows with
  | nil =>
    by_cases h : key = k
    · simp [setRow, h]
    · simp [setRow, h, Ne.symm h]
  | cons head rest ih =>
    obtain ⟨k', v'⟩ := head
    simp only [setRow]
    by_cases hk : k' = key
    · subst hk
      by_cases h : k' = k
      · simp [h]
      · simp [h, Ne.symm h]
    · simp only [hk, if_false, List.find?_cons]
      by_cases h : k' = k
      · have : k ≠ key := fun e => hk (h.trans e)
        simp [h, this]
      · simp [h, ih]

theorem get?_set (t : Table κ α) (key k : κ) (value : α) :
    (t.set key value).get? k = if k = key then some value else t.get? k :=
  find?_setRow t.rows key k value

@[simp] theorem get?_set_self (t : Table κ α) (key : κ) (value : α) :
    (t.set key value).get? key = some value := by simp [get?_set]

theorem get?_set_of_ne (t : Table κ α) {key k : κ} (value : α) (h : k ≠ key) :
    (t.set key value).get? k = t.get? k := by simp [get?_set, h]

theorem get?_erase (t : Table κ α) (key k : κ) :
    (t.erase key).get? k = if k = key then none else t.get? k := by
  simp only [get?, erase, List.find?_filter]
  by_cases h : k = key
  · subst h
    simp
  · simp only [h, if_false]
    congr 2
    funext row
    by_cases hr : row.1 = k <;> simp [hr, h]

theorem get?_modify (t : Table κ α) (key k : κ) (f : α → α) :
    (t.modify key f).get? k = if k = key then (t.get? k).map f else t.get? k := by
  unfold modify
  split
  case h_1 value hv =>
    rw [get?_set]
    by_cases h : k = key
    · simp [h, hv]
    · simp [h]
  case h_2 hv =>
    by_cases h : k = key
    · simp [h, hv]
    · simp [h]

/-! ## Changing all values -/

variable {β : Type}

def map (f : α → β) (t : Table κ α) : Table κ β := ⟨t.rows.map fun row => (row.1, f row.2)⟩

theorem get?_map (f : α → β) (t : Table κ α) (key : κ) : (t.map f).get? key = (t.get? key).map f := by
  simp only [get?, map, List.find?_map, Option.map_map]
  rfl

private theorem map_setRow (f : α → β) (rows : List (κ × α)) (key : κ) (value : α) :
    (setRow key value rows).map (fun row => (row.1, f row.2)) =
      setRow key (f value) (rows.map fun row => (row.1, f row.2)) := by
  induction rows with
  | nil => rfl
  | cons head rest ih =>
    simp only [setRow, List.map_cons]
    by_cases h : head.1 = key
    · simp only [h, if_true, List.map_cons]
    · simp only [h, if_false, List.map_cons, ih]

theorem map_set (f : α → β) (t : Table κ α) (key : κ) (value : α) :
    (t.set key value).map f = (t.map f).set key (f value) := by
  simp only [map, set, map_setRow]

private theorem setRow_of_find? {rows : List (κ × α)} {key : κ} {value : α}
    (h : (rows.find? (·.1 = key)).map (·.2) = some value) : setRow key value rows = rows := by
  induction rows with
  | nil => simp at h
  | cons head rest ih =>
    obtain ⟨k, v⟩ := head
    by_cases hk : k = key
    · subst hk
      simp only [List.find?_cons, decide_true, Option.map_some, Option.some.injEq] at h
      simp only [setRow, if_true, h]
    · simp only [List.find?_cons, hk, decide_false] at h
      simp only [setRow, hk, if_false, ih h]

/-- To set a value that is there already changes nothing. -/
theorem set_of_get? {t : Table κ α} {key : κ} {value : α} (h : t.get? key = some value) :
    t.set key value = t := by
  simp only [set, setRow_of_find? h]

theorem map_set_of_get? {f : α → β} {t : Table κ α} {key : κ} {old new : α}
    (h : t.get? key = some old) (hf : f new = f old) : (t.set key new).map f = t.map f := by
  rw [map_set, hf]
  apply set_of_get?
  rw [get?_map, h, Option.map_some]

theorem map_modify_comm {f : α → β} {change : α → α} {change' : β → β} (t : Table κ α) (key : κ)
    (hf : ∀ value, f (change value) = change' (f value)) :
    (t.modify key change).map f = (t.map f).modify key change' := by
  cases hv : t.get? key with
  | none =>
    have hm : (t.map f).get? key = none := by rw [get?_map, hv, Option.map_none]
    simp only [modify, hv, hm]
  | some value =>
    have hm : (t.map f).get? key = some (f value) := by rw [get?_map, hv, Option.map_some]
    simp only [modify, hv, hm, map_set, hf]

theorem map_modify {f : α → β} {change : α → α} (t : Table κ α) (key : κ)
    (hf : ∀ value, f (change value) = f value) : (t.modify key change).map f = t.map f := by
  unfold modify
  split
  · rename_i value hv
    exact map_set_of_get? hv (hf value)
  · rfl

private theorem setRow_setRow (rows : List (κ × α)) (key : κ) (first second : α) :
    setRow key second (setRow key first rows) = setRow key second rows := by
  induction rows with
  | nil => simp [setRow]
  | cons head rest ih =>
    simp only [setRow]
    by_cases h : head.1 = key
    · simp only [h, if_true, setRow]
    · simp only [h, if_false, setRow, ih]

theorem set_set (t : Table κ α) (key : κ) (first second : α) :
    (t.set key first).set key second = t.set key second := by
  simp only [set, setRow_setRow]

private theorem setRow_comm {rows : List (κ × α)} {key key' : κ} (hne : key ≠ key') (value value' : α)
    (h : (rows.find? (·.1 = key)).isSome) (h' : (rows.find? (·.1 = key')).isSome) :
    setRow key' value' (setRow key value rows) = setRow key value (setRow key' value' rows) := by
  induction rows with
  | nil => simp at h
  | cons head rest ih =>
    obtain ⟨k, v⟩ := head
    by_cases hk : k = key
    · subst hk
      simp [setRow, hne]
    · by_cases hk' : k = key'
      · subst hk'
        simp [setRow, Ne.symm hne]
      · simp only [List.find?_cons, hk, hk', decide_false] at h h'
        simp only [setRow, hk, hk', if_false, ih h h']

/-- Of two rows that are there, either may be set first. -/
theorem set_comm {t : Table κ α} {key key' : κ} (hne : key ≠ key') (value value' : α)
    (h : t.contains key = true) (h' : t.contains key' = true) :
    (t.set key value).set key' value' = (t.set key' value').set key value := by
  simp only [contains, get?, Option.isSome_map] at h h'
  simp only [set, setRow_comm hne value value' h h']

theorem modify_set_comm {t : Table κ α} {key key' : κ} (hne : key' ≠ key) (change : α → α) (value : α)
    (h : t.contains key' = true) :
    (t.modify key change).set key' value = (t.set key' value).modify key change := by
  cases hv : t.get? key with
  | none =>
    have hs : (t.set key' value).get? key = none := by rw [get?_set_of_ne _ _ hne.symm, hv]
    simp only [modify, hv, hs]
  | some old =>
    have hs : (t.set key' value).get? key = some old := by rw [get?_set_of_ne _ _ hne.symm, hv]
    have hc : t.contains key = true := by rw [contains, hv, Option.isSome_some]
    simp only [modify, hv, hs]
    exact set_comm hne.symm _ _ hc h

private theorem filter_setRow (rows : List (κ × α)) (key : κ) (value : α) :
    (setRow key value rows).filter (·.1 ≠ key) = rows.filter (·.1 ≠ key) := by
  induction rows with
  | nil => simp [setRow]
  | cons head rest ih =>
    simp only [setRow]
    by_cases h : head.1 = key
    · simp [h]
    · rw [if_neg h, List.filter_cons, List.filter_cons, ih]

theorem erase_set (t : Table κ α) (key : κ) (value : α) : (t.set key value).erase key = t.erase key := by
  simp only [erase, set, filter_setRow]

theorem erase_of_get?_eq_none {t : Table κ α} {key : κ} (h : t.get? key = none) : t.erase key = t := by
  obtain ⟨rows⟩ := t
  simp only [get?, Option.map_eq_none_iff, List.find?_eq_none, decide_eq_true_eq] at h
  simp only [erase, mk.injEq, List.filter_eq_self, decide_eq_true_eq]
  exact h

/-- To change a value into itself changes nothing. -/
theorem modify_of_get? {t : Table κ α} {key : κ} {value : α} {f : α → α} (h : t.get? key = some value)
    (hf : f value = value) : t.modify key f = t := by
  simp only [modify, h, hf, set_of_get? h]

theorem modify_modify (t : Table κ α) (key : κ) (first second : α → α) :
    (t.modify key first).modify key second = t.modify key fun value => second (first value) := by
  cases hv : t.get? key with
  | none => simp only [modify, hv]
  | some value => simp only [modify, hv, get?_set_self, set_set]

/-! ## Rows -/

theorem length_set_of_get? {t : Table κ α} {key : κ} {old : α} (value : α)
    (h : t.get? key = some old) : (t.set key value).rows.length = t.rows.length := by
  have hm : (t.set key value).map (fun _ => ()) = t.map fun _ => () := map_set_of_get? h rfl
  have hl := congrArg (fun u : Table κ Unit => u.rows.length) hm
  simpa only [map, List.length_map] using hl

theorem length_modify (t : Table κ α) (key : κ) (change : α → α) :
    (t.modify key change).rows.length = t.rows.length := by
  unfold modify
  split
  · rename_i value hv
    exact length_set_of_get? _ hv
  · rfl

private theorem length_setRow_of_find? {rows : List (κ × α)} {key : κ} (value : α)
    (h : (rows.find? (·.1 = key)).map (·.2) = none) :
    (setRow key value rows).length = rows.length + 1 := by
  induction rows with
  | nil => rfl
  | cons head rest ih =>
    obtain ⟨k, v⟩ := head
    by_cases hk : k = key
    · simp [hk] at h
    · simp only [List.find?_cons, hk, decide_false] at h
      simp only [setRow, hk, if_false, List.length_cons, ih h]

theorem length_set_of_get?_eq_none {t : Table κ α} {key : κ} (value : α) (h : t.get? key = none) :
    (t.set key value).rows.length = t.rows.length + 1 := length_setRow_of_find? value h

/-- No key has two rows. -/
def Distinct (t : Table κ α) : Prop := t.keys.Nodup

omit [DecidableEq κ] in
theorem distinct_empty : (⟨[]⟩ : Table κ α).Distinct := List.nodup_nil

private theorem mem_keys_setRow {rows : List (κ × α)} {key k : κ} {value : α} :
    k ∈ (setRow key value rows).map (·.1) ↔ k = key ∨ k ∈ rows.map (·.1) := by
  induction rows with
  | nil => simp [setRow]
  | cons head rest ih =>
    simp only [setRow]
    by_cases h : head.1 = key
    · simp [h]
    · simp only [h, if_false, List.map_cons, List.mem_cons, ih]
      exact or_left_comm

theorem Distinct.set {t : Table κ α} (h : t.Distinct) (key : κ) (value : α) :
    (t.set key value).Distinct := by
  obtain ⟨rows⟩ := t
  simp only [Distinct, keys, Table.set] at h ⊢
  induction rows with
  | nil => simp [setRow]
  | cons head rest ih =>
    simp only [List.map_cons, List.nodup_cons] at h
    simp only [setRow]
    by_cases hk : head.1 = key
    · simp only [hk, if_true, List.map_cons, List.nodup_cons]
      rw [hk] at h
      exact h
    · simp only [hk, if_false, List.map_cons, List.nodup_cons]
      refine ⟨fun hm => ?_, ih h.2⟩
      rcases mem_keys_setRow.mp hm with he | he
      · exact hk he
      · exact h.1 he

omit [DecidableEq κ] in
theorem Distinct.filter {t : Table κ α} (h : t.Distinct) (p : κ × α → Bool) :
    (⟨t.rows.filter p⟩ : Table κ α).Distinct :=
  (List.filter_sublist.map _).nodup h

theorem Distinct.erase {t : Table κ α} (h : t.Distinct) (key : κ) : (t.erase key).Distinct :=
  h.filter _

theorem get?_of_mem {t : Table κ α} (h : t.Distinct) {key : κ} {value : α}
    (hm : (key, value) ∈ t.rows) : t.get? key = some value := by
  obtain ⟨rows⟩ := t
  simp only [Distinct, keys] at h
  simp only [get?]
  induction rows with
  | nil => simp at hm
  | cons head rest ih =>
    simp only [List.map_cons, List.nodup_cons] at h
    rcases List.mem_cons.mp hm with he | he
    · simp [← he]
    · have hk : head.1 ≠ key := fun hk => h.1 (hk ▸ List.mem_map_of_mem he)
      simp only [List.find?_cons, hk, decide_false]
      exact ih h.2 he

theorem mem_of_get? {t : Table κ α} {key : κ} {value : α} (h : t.get? key = some value) :
    (key, value) ∈ t.rows := by
  simp only [get?, Option.map_eq_some_iff] at h
  obtain ⟨row, hr, hv⟩ := h
  have hk := List.find?_some hr
  simp only [decide_eq_true_eq] at hk
  have hm := List.mem_of_find?_eq_some hr
  rw [← hk, ← hv]
  exact hm

/-- Where no key has two rows, a value is found among some of the rows if its row is one of them. -/
theorem get?_filter {t : Table κ α} (h : t.Distinct) (p : κ × α → Bool) (key : κ) :
    (⟨t.rows.filter p⟩ : Table κ α).get? key = (t.get? key).filter fun value => p (key, value) := by
  cases hv : t.get? key with
  | none =>
    rw [Option.filter_none]
    cases hf : (⟨t.rows.filter p⟩ : Table κ α).get? key with
    | none => rfl
    | some value =>
      have hm := get?_of_mem h (List.mem_filter.mp (mem_of_get? hf)).1
      rw [hv] at hm
      cases hm
  | some value =>
    rw [Option.filter_some]
    split
    · rename_i hp
      exact get?_of_mem (h.filter p) (List.mem_filter.mpr ⟨mem_of_get? hv, hp⟩)
    · rename_i hp
      cases hf : (⟨t.rows.filter p⟩ : Table κ α).get? key with
      | none => rfl
      | some other =>
        obtain ⟨hm, hq⟩ := List.mem_filter.mp (mem_of_get? hf)
        have he := get?_of_mem h hm
        rw [hv, Option.some.injEq] at he
        rw [← he] at hq
        exact absurd hq hp

end Table

end SessionTrail
