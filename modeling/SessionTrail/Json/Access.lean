import SessionTrail.Json.Value

/-!
# Looking into values

What a value is, if it is of the wanted kind, the members of objects by name, and whether two values
agree.
-/
namespace SessionTrail.Json.Value

def string? : Value → Option String
  | .string s => some s
  | _ => none

def bool? : Value → Option Bool
  | .bool b => some b
  | _ => none

def nat? : Value → Option Nat
  | .number (.integer n) => n.val.toNat?
  | _ => none

def items? : Value → Option (List Value)
  | .array items => some items
  | _ => none

def members? : Value → Option (List (String × Value))
  | .object members => some members
  | _ => none

/-- The member of a name; the last one if there are several. -/
def member? (v : Value) (name : String) : Option Value :=
  (v.members?.getD []).findRev? (·.1 = name) |>.map (·.2)

def text? (v : Value) (name : String) : Option String := (v.member? name).bind string?

/-- The items of a member that is an array; none if it is no array. -/
def items (v : Value) (name : String) : List Value := ((v.member? name).bind items?).getD []

/-- The members of a member that is an object, those of them that are strings. -/
def texts (v : Value) (name : String) : List (String × String) :=
  (((v.member? name).bind members?).getD []).filterMap fun m => m.2.string?.map (m.1, ·)

/-- The items of a member that are pairs of a text and a value. -/
def pairs (v : Value) (name : String) : List (String × Value) :=
  (v.items name).filterMap fun pair =>
    match pair with
    | .array [.string key, member] => some (key, member)
    | _ => none

mutual

/-- The value with every string and every name changed. -/
def mapStrings (f : String → String) : Value → Value
  | .string s => .string (f s)
  | .array items => .array (mapItems f items)
  | .object members => .object (mapMembers f members)
  | .null => .null
  | .bool b => .bool b
  | .number n => .number n

def mapItems (f : String → String) : List Value → List Value
  | [] => []
  | item :: rest => item.mapStrings f :: mapItems f rest

def mapMembers (f : String → String) : List (String × Value) → List (String × Value)
  | [] => []
  | (name, member) :: rest => (f name, member.mapStrings f) :: mapMembers f rest

end

mutual

/-- The value with no sign on any zero. -/
def withoutZeroSigns : Value → Value
  | .number (.real x) => .number (.real x.withoutZeroSign)
  | .array items => .array (withoutZeroSignsItems items)
  | .object members => .object (withoutZeroSignsMembers members)
  | .null => .null
  | .bool b => .bool b
  | .number (.integer n) => .number (.integer n)
  | .string s => .string s

def withoutZeroSignsItems : List Value → List Value
  | [] => []
  | item :: rest => item.withoutZeroSigns :: withoutZeroSignsItems rest

def withoutZeroSignsMembers : List (String × Value) → List (String × Value)
  | [] => []
  | (name, member) :: rest => (name, member.withoutZeroSigns) :: withoutZeroSignsMembers rest

end

/-- Whether two values agree: they are the same but for the signs of zeros. An integer and a real
number never agree. -/
def agrees (a b : Value) : Bool := a.withoutZeroSigns = b.withoutZeroSigns

end SessionTrail.Json.Value
