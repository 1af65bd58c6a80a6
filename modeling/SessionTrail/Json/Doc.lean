import SessionTrail.Json.Value

/-!
# Documents

A document is what a text shows of a JSON value when it is read from the left: the value, as far as
the text goes before it stops being JSON. A reader of a document therefore meets a fault of the text
exactly where it would meet it in the text, after everything that stands before it, and two faults of
different kinds are told apart by their order alone.

A document also keeps what a reader that only skips a value does not mind: strings with unpaired
surrogates, numbers beyond every real number, and any depth of nesting.
-/
namespace SessionTrail.Json

/-- Why a text is not JSON: something stands where it must not, or the text ends too early. -/
inductive Fault where
  | malformed
  | truncated
deriving DecidableEq, Repr

/-- What is reported where a text stops being JSON: by a reader of the value, by one that skips it,
and by one that looks for the name of an alternative. -/
structure Break where
  read : Fault
  skipped : Fault
  named : Fault
deriving DecidableEq, Repr

/-- A break that every reader reports alike. -/
def Break.plain (f : Fault) : Break := ⟨f, f, f⟩

/-- A JSON value as far as the text shows it. -/
inductive Doc where
  | null
  | bool (b : Bool)
  /-- A number; none if its magnitude is beyond every real number. -/
  | number (n : Option Number)
  /-- A string; none if it holds an unpaired surrogate. -/
  | string (s : Option String)
  /-- Items, and the break that stands in place of the closing bracket. -/
  | array (items : List Doc) (stop : Option Break)
  /-- Members, and the break that stands in place of the closing brace. -/
  | object (members : List (Option String × Doc)) (stop : Option Break)
  | broken (b : Break)
deriving Repr

namespace Doc

mutual

/-- The document of a value. -/
def ofValue : Value → Doc
  | .null => .null
  | .bool b => .bool b
  | .number n => .number (some n)
  | .string s => .string (some s)
  | .array items => .array (ofItems items) none
  | .object members => .object (ofMembers members) none

def ofItems : List Value → List Doc
  | [] => []
  | item :: rest => ofValue item :: ofItems rest

def ofMembers : List (String × Value) → List (Option String × Doc)
  | [] => []
  | (key, member) :: rest => (some key, ofValue member) :: ofMembers rest

end

mutual

/-- The value of a whole document, with the members of objects as they stand. -/
def toValue : Doc → Value
  | .null => .null
  | .bool b => .bool b
  | .number (some n) => .number n
  | .string (some s) => .string s
  | .array items _ => .array (toItems items)
  | .object members _ => .object (toMembers members)
  | .number none | .string none | .broken _ => .null

def toItems : List Doc → List Value
  | [] => []
  | item :: rest => toValue item :: toItems rest

def toMembers : List (Option String × Doc) → List (String × Value)
  | [] => []
  | (key, member) :: rest => (key.getD "", toValue member) :: toMembers rest

end

mutual

/-- Whether a document is a whole value, nested no deeper than `room` levels; else the first fault. -/
def check (room : Nat) : Doc → Except Fault Unit
  | .null | .bool _ | .number (some _) | .string (some _) => .ok ()
  | .number none | .string none => .error .malformed
  | .array items stop =>
    match room with
    | 0 => .error .malformed
    | room + 1 => do
      checkItems room items
      match stop with
      | some b => .error b.read
      | none => .ok ()
  | .object members stop =>
    match room with
    | 0 => .error .malformed
    | room + 1 => do
      checkMembers room members
      match stop with
      | some b => .error b.read
      | none => .ok ()
  | .broken b => .error b.read

def checkItems (room : Nat) : List Doc → Except Fault Unit
  | [] => .ok ()
  | item :: rest => do
    check room item
    checkItems room rest

def checkMembers (room : Nat) : List (Option String × Doc) → Except Fault Unit
  | [] => .ok ()
  | (some _, member) :: rest => do
    check room member
    checkMembers room rest
  | (none, _) :: _ => .error .malformed

end

mutual

/-- Pass over a document: only a break is a fault. -/
def skip : Doc → Except Fault Unit
  | .null | .bool _ | .number _ | .string _ => .ok ()
  | .array items stop => do
    skipItems items
    match stop with
    | some b => .error b.skipped
    | none => .ok ()
  | .object members stop => do
    skipMembers members
    match stop with
    | some b => .error b.skipped
    | none => .ok ()
  | .broken b => .error b.skipped

def skipItems : List Doc → Except Fault Unit
  | [] => .ok ()
  | item :: rest => do
    skip item
    skipItems rest

def skipMembers : List (Option String × Doc) → Except Fault Unit
  | [] => .ok ()
  | (_, member) :: rest => do
    skip member
    skipMembers rest

end

mutual

/-- The document of a value has that value. -/
@[simp] theorem toValue_ofValue : (v : Value) → (ofValue v).toValue = v
  | .null => rfl
  | .bool _ => rfl
  | .number _ => rfl
  | .string _ => rfl
  | .array items => by simp [ofValue, toValue, toItems_ofItems items]
  | .object members => by simp [ofValue, toValue, toMembers_ofMembers members]

theorem toItems_ofItems : (items : List Value) → toItems (ofItems items) = items
  | [] => rfl
  | item :: rest => by simp [ofItems, toItems, toValue_ofValue item, toItems_ofItems rest]

theorem toMembers_ofMembers : (members : List (String × Value)) →
    toMembers (ofMembers members) = members
  | [] => rfl
  | (key, member) :: rest => by
    simp [ofMembers, toMembers, toValue_ofValue member, toMembers_ofMembers rest]

end

end Doc

end SessionTrail.Json
