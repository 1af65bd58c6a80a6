import SessionTrail.Json.Scan

/-!
# Decoding documents

A decoder turns a document into a value of some type or says why it cannot: because the text is no
JSON, or because the JSON has the wrong shape. Decoders go through a document from the left, and the
first fault wins.

A document is read in one of three ways. `direct` is the text itself. `stored` is a JSON value that
somebody has already read, with members in key order. `buffered` is the body of a tagged record: it is
kept as it was written until the tag is known. The ways differ only in how they call a surplus item
and an alternative of the wrong kind.
-/
namespace SessionTrail.Json

/-- Where a document comes from. -/
inductive Reading where
  | direct
  | stored
  | buffered
deriving DecidableEq, Repr

/-- How a JSON value fails to have the wanted shape. -/
inductive Mismatch where
  | missingField (name : String)
  | duplicateField (name : String)
  | unknownVariant (found : String) (expected : List String)
  | invalidType
  | invalidValue
  | invalidLength
  | invalidUuid
  | invalidTimestamp
deriving DecidableEq, Repr

/-- Why a document has no value of the wanted type. -/
inductive DecodeError where
  | unreadable (f : Fault)
  | mismatch (m : Mismatch)
deriving DecidableEq, Repr

/-- A name between backticks. -/
def ticked (name : String) : String := "`" ++ name ++ "`"

def Mismatch.message : Mismatch → String
  | .missingField name => "missing field " ++ ticked name
  | .duplicateField name => "duplicate field " ++ ticked name
  | .unknownVariant found expected =>
    "unknown variant " ++ ticked found ++ ", expected " ++
      match expected with
      | [a, b] => ticked a ++ " or " ++ ticked b
      | names => "one of " ++ String.intercalate ", " (names.map ticked)
  | .invalidType => "invalid type"
  | .invalidValue => "invalid value"
  | .invalidLength => "invalid length"
  | .invalidUuid => "invalid uuid"
  | .invalidTimestamp => "invalid timestamp"

/-- A decoder that does not depend on where the document comes from. -/
abbrev Decoder (α : Type) := Doc → Except DecodeError α

/-- The refusal of a document that is of another kind than the wanted one. A scalar is read first, so
a fault in it comes first; an array or an object is not looked into. -/
def Doc.refusal : Doc → DecodeError
  | .broken b => .unreadable b.read
  | .number none | .string none => .unreadable .malformed
  | .null | .bool _ | .number (some _) | .string (some _) | .array .. | .object .. =>
    .mismatch .invalidType

/-! ## Plain values -/

def decodeString : Decoder String
  | .string (some s) => .ok s
  | d => .error d.refusal

def decodeBool : Decoder Bool
  | .bool b => .ok b
  | d => .error d.refusal

/-- A natural number below `bound`: an integer out of range has the wrong value, a real number the
wrong type. -/
def decodeBelow (bound : Nat) : Decoder Nat
  | .number (some (.integer n)) =>
    if 0 ≤ n.val ∧ n.val < bound then .ok n.val.toNat else .error (.mismatch .invalidValue)
  | d => .error d.refusal

def decodeUInt16 : Decoder UInt16 := fun d => (decodeBelow UInt16.size d).map UInt16.ofNat

def decodeUInt32 : Decoder UInt32 := fun d => (decodeBelow UInt32.size d).map UInt32.ofNat

def decodeUInt64 : Decoder UInt64 := fun d => (decodeBelow UInt64.size d).map UInt64.ofNat

def decodeOption {α : Type} (decode : Decoder α) : Decoder (Option α)
  | .null => .ok none
  | d => (decode d).map some

/-- The values of the items of an array up to a break. -/
def decodeItems {α : Type} (decode : Decoder α) (stop : Option Break) :
    List Doc → Except DecodeError (List α)
  | [] =>
    match stop with
    | some b => .error (.unreadable b.read)
    | none => .ok []
  | item :: rest => do
    let value ← decode item
    let values ← decodeItems decode stop rest
    return value :: values

def decodeList {α : Type} (decode : Decoder α) : Decoder (List α)
  | .array items stop => decodeItems decode stop items
  | d => .error d.refusal

/-- Put the members of an object up to a break into a map, the last of equal keys kept. -/
def decodeEntries {α : Type} (decode : Decoder α) (stop : Option Break) (m : SortedMap α) :
    List (Option String × Doc) → Except DecodeError (SortedMap α)
  | [] =>
    match stop with
    | some b => .error (.unreadable b.read)
    | none => .ok m
  | (none, _) :: _ => .error (.unreadable .malformed)
  | (some key, member) :: rest => do
    let value ← decode member
    decodeEntries decode stop (m.insert key value) rest

def decodeMap {α : Type} (decode : Decoder α) : Decoder (SortedMap α)
  | .object members stop => decodeEntries decode stop .empty members
  | d => .error d.refusal

/-! ## Records

A record is written as an object or as an array of its fields in order. -/

/-- What becomes of a field that is not there: `required` fields are missed, `nullable` ones are null
in an object and missed in an array, and `defaulted` ones have their default. -/
inductive Presence where
  | required
  | nullable
  | defaulted
deriving DecidableEq, Repr

/-- A field of a record: its name, what becomes of it when it is not there, and a test of its value. -/
structure Field where
  name : String
  presence : Presence
  accepts : Doc → Except DecodeError Unit

namespace Field

def test {α : Type} (decode : Decoder α) : Decoder Unit := fun d => (decode d).map fun _ => ()

def required {α : Type} (name : String) (decode : Decoder α) : Field := ⟨name, .required, test decode⟩

/-- A field that may be null. -/
def nullable {α : Type} (name : String) (decode : Decoder α) : Field :=
  ⟨name, .nullable, test (decodeOption decode)⟩

/-- A field with a default. -/
def defaulted {α : Type} (name : String) (decode : Decoder α) : Field := ⟨name, .defaulted, test decode⟩

end Field

/-- The fields that are there, each with its document. -/
abbrev Fields := List (String × Doc)

def Fields.find? (fields : Fields) (name : String) : Option Doc :=
  (List.find? (fun f => f.1 = name) fields).map (·.2)

/-- The value of a field that must be there. -/
def Fields.get {α : Type} (fields : Fields) (name : String) (decode : Decoder α) :
    Except DecodeError α :=
  match fields.find? name with
  | some d => decode d
  | none => .error (.mismatch (.missingField name))

/-- The value of a field, or `default` if it is not there. -/
def Fields.getD {α : Type} (fields : Fields) (name : String) (decode : Decoder α) (default : α) :
    Except DecodeError α :=
  match fields.find? name with
  | some d => decode d
  | none => .ok default

/-- The first required field that is not there. -/
def firstMissing (shape : List Field) (found : Fields) : Option String :=
  (shape.find? fun f => f.presence = .required ∧ (found.find? f.name).isNone).map (·.name)

/-- The fields among the members of an object. Other members are passed over; a second member of one
name is refused before its value is read, and missing fields are noticed at the end. -/
def fieldsOfMembers (shape : List Field) (stop : Option Break) (found : Fields) :
    List (Option String × Doc) → Except DecodeError Fields
  | [] =>
    match stop with
    | some b => .error (.unreadable b.read)
    | none =>
      match firstMissing shape found with
      | some name => .error (.mismatch (.missingField name))
      | none => .ok found
  | (none, _) :: _ => .error (.unreadable .malformed)
  | (some key, member) :: rest =>
    match shape.find? (·.name = key) with
    | some f =>
      if (found.find? key).isSome then .error (.mismatch (.duplicateField key))
      else do
        f.accepts member
        fieldsOfMembers shape stop (found ++ [(key, member)]) rest
    | none =>
      match member.skip with
      | .error fault => .error (.unreadable fault)
      | .ok () => fieldsOfMembers shape stop found rest

/-- The fields among the items of an array. Too few items are too short unless the other fields have
defaults; a surplus item is malformed where the text itself is read. -/
def fieldsOfItems (reading : Reading) (stop : Option Break) (found : Fields) :
    List Field → List Doc → Except DecodeError Fields
  | [], [] =>
    match stop with
    | some b => .error (.unreadable b.read)
    | none => .ok found
  | [], _ :: _ =>
    match reading with
    | .direct => .error (.unreadable .malformed)
    | .stored | .buffered => .error (.mismatch .invalidLength)
  | f :: shape, [] =>
    match stop with
    | some b => .error (.unreadable b.read)
    | none =>
      if f.presence = .defaulted then fieldsOfItems reading stop found shape []
      else .error (.mismatch .invalidLength)
  | f :: shape, item :: rest => do
    f.accepts item
    fieldsOfItems reading stop (found ++ [(f.name, item)]) shape rest

def decodeFields (reading : Reading) (shape : List Field) : Decoder Fields
  | .object members stop => fieldsOfMembers shape stop [] members
  | .array items stop => fieldsOfItems reading stop [] shape items
  | d => .error d.refusal

/-! ## Alternatives

One of several alternatives is written as its name, or as an object whose only key is its name and
whose value is its content. -/

/-- The alternative `name` with its content, if it is one of `names`. -/
def decodeNamed {α : Type} (names : List String) (pick : String → Option Doc → Except DecodeError α)
    (name : String) (content : Option Doc) : Except DecodeError α :=
  if name ∈ names then pick name content else .error (.mismatch (.unknownVariant name names))

/-- One of the alternatives `names`, in a text. Behind the content the object must end. -/
def decodeVariantDirect {α : Type} (names : List String)
    (pick : String → Option Doc → Except DecodeError α) : Decoder α
  | .string (some s) => decodeNamed names pick s none
  | .broken b => .error (.unreadable b.named)
  | .object ((some name, content) :: rest) stop => do
    let value ← decodeNamed names pick name (some content)
    match rest, stop with
    | [], none => .ok value
    | [], some b => .error (.unreadable b.named)
    | _ :: _, _ => .error (.unreadable .malformed)
  | .object [] (some b) => .error (.unreadable b.read)
  | .object [] none | .object ((none, _) :: _) _ => .error (.unreadable .malformed)
  | .null | .bool _ | .number _ | .string none | .array .. => .error (.unreadable .malformed)

/-- One of the alternatives `names`, in a document that has been read before. -/
def decodeVariantKept {α : Type} (names : List String)
    (pick : String → Option Doc → Except DecodeError α) : Decoder α
  | .string (some s) => decodeNamed names pick s none
  | .object [(some name, content)] none => decodeNamed names pick name (some content)
  | .object .. => .error (.mismatch .invalidValue)
  | d => .error d.refusal

/-- One of the alternatives `names`. -/
def decodeVariant {α : Type} (reading : Reading) (names : List String)
    (pick : String → Option Doc → Except DecodeError α) : Decoder α :=
  match reading with
  | .direct => decodeVariantDirect names pick
  | .stored | .buffered => decodeVariantKept names pick

/-- The content of an alternative that has none: absent, or null; a buffered empty object will do. -/
def decodeNoContent (reading : Reading) : Option Doc → Except DecodeError Unit
  | none | some .null => .ok ()
  | some (.object [] none) =>
    if reading = .buffered then .ok () else .error (.mismatch .invalidType)
  | some d => .error d.refusal

/-- The content of an alternative that must have one. -/
def decodeContent {α : Type} (decode : Decoder α) : Option Doc → Except DecodeError α
  | some d => decode d
  | none => .error (.mismatch .invalidType)

/-! ## Tagged records

A tagged record is an object with the name of its kind in one member, or an array that starts with it. -/

/-- The name of a kind, which must be one of `names`. -/
def decodeTag (names : List String) : Decoder String := fun d => do
  let name ← decodeString d
  if name ∈ names then .ok name else .error (.mismatch (.unknownVariant name names))

/-- The tag among the members of an object, with the other members as they stand. -/
def tagOfMembers (tag : String) (names : List String) (stop : Option Break) (found : Option String)
    (body : List (Option String × Doc)) :
    List (Option String × Doc) → Except DecodeError (String × List (Option String × Doc))
  | [] =>
    match stop, found with
    | some b, _ => .error (.unreadable b.read)
    | none, some name => .ok (name, body)
    | none, none => .error (.mismatch (.missingField tag))
  | (none, _) :: _ => .error (.unreadable .malformed)
  | (some key, member) :: rest =>
    if key = tag then
      if found.isSome then .error (.mismatch (.duplicateField tag))
      else do
        let name ← decodeTag names member
        tagOfMembers tag names stop (some name) body rest
    else
      match member.check (maxDepth - 1) with
      | .error f => .error (.unreadable f)
      | .ok () => tagOfMembers tag names stop found (body ++ [(some key, member)]) rest

/-- The tag of a record and its body, which is whole. -/
def decodeTagged (tag : String) (names : List String) : Decoder (String × Doc)
  | .object members stop => do
    let (name, body) ← tagOfMembers tag names stop none [] members
    return (name, .object body none)
  | .array [] (some b) => .error (.unreadable b.read)
  | .array [] none => .error (.mismatch (.missingField tag))
  | .array (item :: rest) stop => do
    let name ← decodeTag names item
    match Doc.checkItems (maxDepth - 1) rest, stop with
    | .error f, _ => .error (.unreadable f)
    | .ok (), some b => .error (.unreadable b.read)
    | .ok (), none => return (name, .array rest none)
  | d => .error d.refusal

/-! ## Whole texts and values -/

/-- The value of a text that holds one value and nothing else but blanks. What stands behind the
value is looked at last. -/
def decodeText {α : Type} (decode : Reading → Decoder α) (text : String) : Except DecodeError α := do
  let (doc, rest) := scan text.toList
  let value ← decode .direct doc
  match rest.map skipBlanks with
  | some [] => .ok value
  | _ => .error (.unreadable .malformed)

/-- The value of a JSON value that has been read before. -/
def decodeValue {α : Type} (decode : Reading → Decoder α) (v : Value) : Except DecodeError α :=
  decode .stored (Doc.ofValue v.canonical)

end SessionTrail.Json
