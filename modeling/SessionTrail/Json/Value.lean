import SessionTrail.SortedMap
import SessionTrail.Json.Binary64

/-!
# JSON values

A value keeps the members of an object in the order in which they are written. `Value.canonical`
puts them into key order and keeps the last of several members with one key. It answers canonical
values (`Value.isCanonical_canonical`) and leaves them as they are (`Value.canonical_eq_self`), so
each JSON value that ignores the order of members is one `CanonicalValue`.
-/
namespace SessionTrail.Json

/-- The integers that a number can stand for: those that fit 64 bits, with or without a sign. -/
structure Integer where
  val : Int
  least : -0x8000000000000000 ≤ val
  most : val < 0x10000000000000000
deriving DecidableEq, Repr

/-- A number: an integer, or else a real number. -/
inductive Number where
  | integer (n : Integer)
  | real (x : Binary64)
deriving DecidableEq, Repr

/-- A natural number below `2 ^ 64` as a number. -/
def Number.ofNat (n : Nat) (h : n < 0x10000000000000000) : Number :=
  .integer ⟨n, by omega, by omega⟩

inductive Value where
  | null
  | bool (b : Bool)
  | number (n : Number)
  | string (s : String)
  | array (items : List Value)
  | object (members : List (String × Value))
deriving Repr

instance : Inhabited Value := ⟨.null⟩

namespace Value

mutual

private def decideEq : (a b : Value) → Decidable (a = b)
  | .null, b => by
    cases b
    case null => exact isTrue rfl
    all_goals exact isFalse nofun
  | .bool a, b => by
    cases b
    case bool b => exact if h : a = b then isTrue (h ▸ rfl) else isFalse fun e => h (by injection e)
    all_goals exact isFalse nofun
  | .number a, b => by
    cases b
    case number b =>
      exact if h : a = b then isTrue (h ▸ rfl) else isFalse fun e => h (by injection e)
    all_goals exact isFalse nofun
  | .string a, b => by
    cases b
    case string b =>
      exact if h : a = b then isTrue (h ▸ rfl) else isFalse fun e => h (by injection e)
    all_goals exact isFalse nofun
  | .array a, b => by
    cases b
    case array b =>
      exact match decideEqItems a b with
        | isTrue h => isTrue (h ▸ rfl)
        | isFalse h => isFalse fun e => h (by injection e)
    all_goals exact isFalse nofun
  | .object a, b => by
    cases b
    case object b =>
      exact match decideEqMembers a b with
        | isTrue h => isTrue (h ▸ rfl)
        | isFalse h => isFalse fun e => h (by injection e)
    all_goals exact isFalse nofun

private def decideEqItems : (a b : List Value) → Decidable (a = b)
  | [], [] => isTrue rfl
  | [], _ :: _ => isFalse nofun
  | _ :: _, [] => isFalse nofun
  | a :: as, b :: bs =>
    match decideEq a b, decideEqItems as bs with
    | isTrue h, isTrue g => isTrue (by rw [h, g])
    | isFalse h, _ => isFalse fun e => h (by injection e)
    | _, isFalse g => isFalse fun e => g (by injection e)

private def decideEqMembers : (a b : List (String × Value)) → Decidable (a = b)
  | [], [] => isTrue rfl
  | [], _ :: _ => isFalse nofun
  | _ :: _, [] => isFalse nofun
  | (k, a) :: as, (l, b) :: bs =>
    if hk : k = l then
      match decideEq a b, decideEqMembers as bs with
      | isTrue h, isTrue g => isTrue (by rw [hk, h, g])
      | isFalse h, _ => isFalse fun e => h (by injection e with e _; injection e)
      | _, isFalse g => isFalse fun e => g (by injection e)
    else isFalse fun e => hk (by injection e with e _; injection e)

end

instance : DecidableEq Value := decideEq

mutual

/-- The value with the members of every object in key order, the last of equal keys kept. -/
def canonical : Value → Value
  | .array items => .array (canonicalItems items)
  | .object members => .object (canonicalMembers [] members)
  | .null => .null
  | .bool b => .bool b
  | .number n => .number n
  | .string s => .string s

def canonicalItems : List Value → List Value
  | [] => []
  | item :: rest => item.canonical :: canonicalItems rest

/-- Put canonical members one after the other into entries in key order. -/
def canonicalMembers (entries : List (String × Value)) : List (String × Value) → List (String × Value)
  | [] => entries
  | (key, member) :: rest => canonicalMembers (insertEntry key member.canonical entries) rest

end

mutual

/-- Whether the members of every object stand in ascending key order. -/
def isCanonical : Value → Bool
  | .array items => isCanonicalItems items
  | .object members => decide (Ascending members) && isCanonicalMembers members
  | .null | .bool _ | .number _ | .string _ => true

def isCanonicalItems : List Value → Bool
  | [] => true
  | item :: rest => item.isCanonical && isCanonicalItems rest

def isCanonicalMembers : List (String × Value) → Bool
  | [] => true
  | (_, member) :: rest => member.isCanonical && isCanonicalMembers rest

end

mutual

/-- Whether no real number occurs. -/
def isIntegral : Value → Bool
  | .number (.real _) => false
  | .array items => isIntegralItems items
  | .object members => isIntegralMembers members
  | .null | .bool _ | .number (.integer _) | .string _ => true

def isIntegralItems : List Value → Bool
  | [] => true
  | item :: rest => item.isIntegral && isIntegralItems rest

def isIntegralMembers : List (String × Value) → Bool
  | [] => true
  | (_, member) :: rest => member.isIntegral && isIntegralMembers rest

end

mutual

/-- How deep arrays and objects are nested. -/
def depth : Value → Nat
  | .array items => depthItems items + 1
  | .object members => depthMembers members + 1
  | .null | .bool _ | .number _ | .string _ => 0

def depthItems : List Value → Nat
  | [] => 0
  | item :: rest => max item.depth (depthItems rest)

def depthMembers : List (String × Value) → Nat
  | [] => 0
  | (_, member) :: rest => max member.depth (depthMembers rest)

end

mutual

/-- A canonical value is its own canonical form. -/
theorem canonical_eq_self : {v : Value} → v.isCanonical = true → v.canonical = v
  | .null, _ => rfl
  | .bool _, _ => rfl
  | .number _, _ => rfl
  | .string _, _ => rfl
  | .array items, h => by
    simp only [isCanonical] at h
    simp [canonical, canonicalItems_eq_self h]
  | .object members, h => by
    simp only [isCanonical, Bool.and_eq_true, decide_eq_true_eq] at h
    simp [canonical, canonicalMembers_eq_append [] h.1 (by simp) h.2]

theorem canonicalItems_eq_self : {items : List Value} → isCanonicalItems items = true →
    canonicalItems items = items
  | [], _ => rfl
  | item :: rest, h => by
    simp only [isCanonicalItems, Bool.and_eq_true] at h
    simp [canonicalItems, canonical_eq_self h.1, canonicalItems_eq_self h.2]

theorem canonicalMembers_eq_append (entries : List (String × Value)) :
    {members : List (String × Value)} → Ascending members →
    (∀ e ∈ entries, ∀ m ∈ members, e.1 < m.1) → isCanonicalMembers members = true →
    canonicalMembers entries members = entries ++ members
  | [], _, _, _ => by simp [canonicalMembers]
  | (key, member) :: rest, hasc, hlt, h => by
    simp only [isCanonicalMembers, Bool.and_eq_true] at h
    have hhead := (List.pairwise_cons.1 hasc).1
    have hput : insertEntry key member.canonical entries = entries ++ [(key, member)] := by
      rw [canonical_eq_self h.1]
      exact insertEntry_of_all_lt fun e he => hlt e he (key, member) List.mem_cons_self
    rw [canonicalMembers, hput, canonicalMembers_eq_append _ (List.pairwise_cons.1 hasc).2 _ h.2]
    · simp
    · intro e he m hm
      rcases List.mem_append.1 he with he | he
      · exact hlt e he m (List.mem_cons_of_mem _ hm)
      · rw [List.mem_singleton.1 he]
        exact hhead m hm

end

theorem isCanonicalMembers_insertEntry {entries : List (String × Value)} {key : String} {v : Value}
    (h : isCanonicalMembers entries = true) (hv : v.isCanonical = true) :
    isCanonicalMembers (insertEntry key v entries) = true := by
  induction entries with
  | nil => simp [insertEntry, isCanonicalMembers, hv]
  | cons head rest ih =>
    obtain ⟨k, w⟩ := head
    simp only [isCanonicalMembers, Bool.and_eq_true] at h
    simp only [insertEntry]
    split
    · simp [isCanonicalMembers, h, hv]
    · split
      · simp [isCanonicalMembers, h, hv]
      · simp [isCanonicalMembers, h, ih h.2]

mutual

/-- `canonical` answers canonical values. -/
theorem isCanonical_canonical : (v : Value) → v.canonical.isCanonical = true
  | .null => rfl
  | .bool _ => rfl
  | .number _ => rfl
  | .string _ => rfl
  | .array items => by simp [canonical, isCanonical, isCanonicalItems_canonicalItems items]
  | .object members => by
    have h := @isCanonicalMembers_canonicalMembers members [] List.Pairwise.nil rfl
    simp [canonical, isCanonical, h]

theorem isCanonicalItems_canonicalItems : (items : List Value) →
    isCanonicalItems (canonicalItems items) = true
  | [] => rfl
  | item :: rest => by
    simp [canonicalItems, isCanonicalItems, isCanonical_canonical item,
      isCanonicalItems_canonicalItems rest]

theorem isCanonicalMembers_canonicalMembers : (members : List (String × Value)) →
    {entries : List (String × Value)} → Ascending entries → isCanonicalMembers entries = true →
    Ascending (canonicalMembers entries members) ∧
      isCanonicalMembers (canonicalMembers entries members) = true
  | [], _, hasc, h => ⟨hasc, h⟩
  | (key, member) :: rest, _, hasc, h =>
    isCanonicalMembers_canonicalMembers rest (hasc.insertEntry key member.canonical)
      (isCanonicalMembers_insertEntry h (isCanonical_canonical member))

end

end Value

/-- A JSON value as a set of members at every level: its members are in key order. -/
structure CanonicalValue where
  value : Value
  canonical : value.isCanonical = true := by rfl
deriving DecidableEq, Repr

def CanonicalValue.of (v : Value) : CanonicalValue := ⟨v.canonical, v.isCanonical_canonical⟩

theorem CanonicalValue.of_value (v : CanonicalValue) : CanonicalValue.of v.value = v := by
  obtain ⟨v, h⟩ := v
  simp [CanonicalValue.of, Value.canonical_eq_self h]

end SessionTrail.Json
