import SessionTrail.Json.Value

/-!
# Encoding values

How plain values, options, lists and maps become JSON values, and the members of a record: one for
each part, and none for a part that is left out.
-/
namespace SessionTrail.Json.Value

def ofUInt16 (n : UInt16) : Value :=
  .number (.ofNat n.toNat (Nat.lt_trans n.toNat_lt (by decide)))

def ofUInt32 (n : UInt32) : Value :=
  .number (.ofNat n.toNat (Nat.lt_trans n.toNat_lt (by decide)))

def ofUInt64 (n : UInt64) : Value := .number (.ofNat n.toNat n.toNat_lt)

def ofOption {α : Type} (encode : α → Value) : Option α → Value
  | some a => encode a
  | none => .null

def ofList {α : Type} (encode : α → Value) (items : List α) : Value := .array (items.map encode)

def ofMap {α : Type} (encode : α → Value) (m : SortedMap α) : Value :=
  .object (m.entries.map fun e => (e.1, encode e.2))

/-- The member of a part that may be absent. -/
def memberOfOption {α : Type} (name : String) (encode : α → Value) :
    Option α → List (String × Value)
  | some a => [(name, encode a)]
  | none => []

/-- The member of a map that is left out when it is empty. -/
def memberOfMap {α : Type} (name : String) (encode : α → Value) (m : SortedMap α) :
    List (String × Value) :=
  if m.isEmpty then [] else [(name, ofMap encode m)]

/-- The member of a list that is left out when it is empty. -/
def memberOfList {α : Type} (name : String) (encode : α → Value) (items : List α) :
    List (String × Value) :=
  if items.isEmpty then [] else [(name, ofList encode items)]

end SessionTrail.Json.Value
