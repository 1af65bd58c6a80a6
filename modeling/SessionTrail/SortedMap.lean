/-!
# Maps from text to values, kept in key order

A map is the list of its entries with strictly ascending keys. Strings are ordered by code point,
which is also the order of their UTF-8 bytes, so the entries stand in the order in which they are
written. `SortedMap.get?_insert` says what a look-up finds after a write.
-/
namespace SessionTrail

/-- Put `value` under `key` into entries in ascending key order, replacing an entry with that key. -/
def insertEntry {α : Type} (key : String) (value : α) : List (String × α) → List (String × α)
  | [] => [(key, value)]
  | (k, v) :: rest =>
    if key < k then (key, value) :: (k, v) :: rest
    else if key = k then (key, value) :: rest
    else (k, v) :: insertEntry key value rest

/-- Keys ascend strictly. -/
def Ascending {α : Type} (entries : List (String × α)) : Prop :=
  entries.Pairwise fun a b => a.1 < b.1

instance {α : Type} (entries : List (String × α)) : Decidable (Ascending entries) :=
  inferInstanceAs (Decidable (entries.Pairwise fun a b => a.1 < b.1))

theorem mem_insertEntry {α : Type} {key : String} {value : α} {entries : List (String × α)}
    {e : String × α} (h : e ∈ insertEntry key value entries) : e = (key, value) ∨ e ∈ entries := by
  induction entries with
  | nil => simpa [insertEntry] using h
  | cons head rest ih =>
    obtain ⟨k, v⟩ := head
    simp only [insertEntry] at h
    split at h
    · simpa using h
    · split at h
      · rcases List.mem_cons.1 h with h | h
        · exact .inl h
        · exact .inr (List.mem_cons_of_mem _ h)
      · rcases List.mem_cons.1 h with h | h
        · exact .inr (h ▸ List.mem_cons_self)
        · rcases ih h with h | h
          · exact .inl h
          · exact .inr (List.mem_cons_of_mem _ h)

theorem Ascending.insertEntry {α : Type} {entries : List (String × α)} (h : Ascending entries)
    (key : String) (value : α) : Ascending (insertEntry key value entries) := by
  induction entries with
  | nil => simp [Ascending, SessionTrail.insertEntry]
  | cons head rest ih =>
    obtain ⟨k, v⟩ := head
    have hrest : Ascending rest := (List.pairwise_cons.1 h).2
    have hhead := (List.pairwise_cons.1 h).1
    simp only [SessionTrail.insertEntry]
    split
    case isTrue hlt =>
      refine List.pairwise_cons.2 ⟨fun e he => ?_, h⟩
      rcases List.mem_cons.1 he with rfl | he
      · exact hlt
      · exact String.lt_trans hlt (hhead e he)
    case isFalse hlt =>
      split
      case isTrue heq =>
        subst heq
        exact List.pairwise_cons.2 ⟨hhead, hrest⟩
      case isFalse hne =>
        refine List.pairwise_cons.2 ⟨fun e he => ?_, ih hrest⟩
        rcases mem_insertEntry he with rfl | he
        · exact String.not_le.1 fun hle => hne (String.le_antisymm (String.not_lt.1 hlt) hle).symm
        · exact hhead e he

/-- Entries stay as they are when one that follows them in key order is put in. -/
theorem insertEntry_of_all_lt {α : Type} {entries : List (String × α)} {key : String} {value : α}
    (h : ∀ e ∈ entries, e.1 < key) : insertEntry key value entries = entries ++ [(key, value)] := by
  induction entries with
  | nil => rfl
  | cons head rest ih =>
    obtain ⟨k, v⟩ := head
    have hk : k < key := h (k, v) List.mem_cons_self
    have hne : ¬ key = k := fun e => String.lt_irrefl k (e ▸ hk)
    simp [insertEntry, String.lt_asymm hk, hne, ih fun e he => h e (List.mem_cons_of_mem _ he)]

/-- A finite map from strings to `α`. -/
structure SortedMap (α : Type) where
  entries : List (String × α)
  ascending : Ascending entries := by decide
deriving DecidableEq, Repr

namespace SortedMap

variable {α : Type}

instance : Inhabited (SortedMap α) := ⟨⟨[], List.Pairwise.nil⟩⟩

theorem ext {m m' : SortedMap α} (h : m.entries = m'.entries) : m = m' := by
  obtain ⟨entries, _⟩ := m
  cases h
  rfl

def empty : SortedMap α := ⟨[], List.Pairwise.nil⟩

/-- Set the value of `key`, whether or not it has one. -/
def insert (m : SortedMap α) (key : String) (value : α) : SortedMap α :=
  ⟨insertEntry key value m.entries, m.ascending.insertEntry key value⟩

def get? (m : SortedMap α) (key : String) : Option α :=
  (m.entries.find? (·.1 = key)).map (·.2)

def contains (m : SortedMap α) (key : String) : Bool := (m.get? key).isSome

def erase (m : SortedMap α) (key : String) : SortedMap α :=
  ⟨m.entries.filter (·.1 != key), m.ascending.filter _⟩

/-- Set the value of `key` unless it has one. -/
def insertIfAbsent (m : SortedMap α) (key : String) (value : α) : SortedMap α :=
  if m.contains key then m else m.insert key value

/-- The map of a list of entries, where a later entry replaces an earlier one with its key. -/
def ofList (entries : List (String × α)) : SortedMap α :=
  entries.foldl (fun m e => m.insert e.1 e.2) empty

def isEmpty (m : SortedMap α) : Bool := m.entries.isEmpty

@[simp] theorem get?_empty (key : String) : (empty : SortedMap α).get? key = none := rfl

private theorem find?_insertEntry (entries : List (String × α)) (key k : String) (value : α) :
    ((insertEntry key value entries).find? (·.1 = k)).map (·.2) =
      if k = key then some value else (entries.find? (·.1 = k)).map (·.2) := by
  induction entries with
  | nil =>
    by_cases h : key = k
    · simp [insertEntry, h]
    · simp [insertEntry, h, Ne.symm h]
  | cons head rest ih =>
    obtain ⟨k', v'⟩ := head
    simp only [insertEntry]
    split
    · by_cases h : key = k
      · simp [h]
      · simp [List.find?_cons, h, Ne.symm h]
    · split
      case isTrue heq =>
        subst heq
        by_cases h : key = k
        · simp [h]
        · simp [h, Ne.symm h]
      case isFalse hne =>
        simp only [List.find?_cons]
        by_cases h : k' = k
        · have : k ≠ key := fun e => hne (h.trans e).symm
          simp [h, this]
        · simp [h, ih]

theorem get?_insert (m : SortedMap α) (key k : String) (value : α) :
    (m.insert key value).get? k = if k = key then some value else m.get? k :=
  find?_insertEntry m.entries key k value

@[simp] theorem get?_insert_self (m : SortedMap α) (key : String) (value : α) :
    (m.insert key value).get? key = some value := by simp [get?_insert]

theorem get?_insert_of_ne (m : SortedMap α) {key k : String} (value : α) (h : k ≠ key) :
    (m.insert key value).get? k = m.get? k := by simp [get?_insert, h]

end SortedMap

end SessionTrail
