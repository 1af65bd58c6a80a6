import SessionTrail.Breadcrumb
import SessionTrail.Json.Access
import SessionTrail.Uuid

/-!
# Reports

What a program says about an incident: who was concerned, tags to search by, further data, and the
breadcrumbs that led up to it. A user that is present but has no id is not the same as no user.
-/
namespace SessionTrail

open Json

/-- The user that an incident concerned. -/
structure User where
  id : Option String
deriving DecidableEq, Repr

namespace User

def shape : List Field := [.defaulted "id" (decodeOption decodeString)]

def encode (user : User) : Value := .object (Value.memberOfOption "id" .string user.id)

def decode (reading : Reading) : Decoder User := fun d => do
  let fields ← decodeFields reading shape d
  return ⟨← fields.getD "id" (decodeOption decodeString) none⟩

end User

/-- A report of an incident. -/
structure Report where
  eventId : Uuid
  timestamp : Timestamp
  level : Level
  message : Option String
  user : Option User
  tags : SortedMap String
  extra : SortedMap String
  breadcrumbs : List Breadcrumb
deriving DecidableEq, Repr

/-- A place in a report where one thing can be said. -/
inductive Place where
  | userId
  | tag (key : String)
  | extra (key : String)
deriving DecidableEq, Repr

namespace Report

/-- A report that says nothing yet. -/
def new (eventId : Uuid) (timestamp : Timestamp) (level : Level) : Report :=
  ⟨eventId, timestamp, level, none, none, .empty, .empty, []⟩

/-- What a report says in a place. -/
def at? (r : Report) : Place → Option String
  | .userId => r.user.bind (·.id)
  | .tag key => r.tags.get? key
  | .extra key => r.extra.get? key

/-- Say something in a place, whatever has been said there. -/
def put (r : Report) (value : String) : Place → Report
  | .userId => { r with user := some ⟨some value⟩ }
  | .tag key => { r with tags := r.tags.insert key value }
  | .extra key => { r with extra := r.extra.insert key value }

/-- Say something in a place where nothing has been said; whether it was said. -/
def putIfAbsent (r : Report) (value : String) (place : Place) : Report × Bool :=
  if (r.at? place).isSome then (r, false) else (r.put value place, true)

/-- Remove a tag. -/
def withoutTag (r : Report) (key : String) : Report := { r with tags := r.tags.erase key }

def shape (reading : Reading) : List Field :=
  [.required "event_id" Uuid.decode, .required "timestamp" Timestamp.decode,
    .required "level" (Level.decode reading), .defaulted "message" (decodeOption decodeString),
    .defaulted "user" (decodeOption (User.decode reading)),
    .defaulted "tags" (decodeMap decodeString), .defaulted "extra" (decodeMap decodeString),
    .defaulted "breadcrumbs" (decodeList (Breadcrumb.decode reading))]

/-- A report as a JSON value. Empty parts are left out. -/
def encode (r : Report) : Value :=
  .object ([("event_id", r.eventId.encode), ("timestamp", r.timestamp.encode),
    ("level", r.level.encode)] ++
    Value.memberOfOption "message" .string r.message ++
    Value.memberOfOption "user" User.encode r.user ++
    Value.memberOfMap "tags" .string r.tags ++
    Value.memberOfMap "extra" .string r.extra ++
    Value.memberOfList "breadcrumbs" Breadcrumb.encode r.breadcrumbs)

def decode (reading : Reading) : Decoder Report := fun d => do
  let fields ← decodeFields reading (shape reading) d
  let eventId ← fields.get "event_id" Uuid.decode
  let timestamp ← fields.get "timestamp" Timestamp.decode
  let level ← fields.get "level" (Level.decode reading)
  let message ← fields.getD "message" (decodeOption decodeString) none
  let user ← fields.getD "user" (decodeOption (User.decode reading)) none
  let tags ← fields.getD "tags" (decodeMap decodeString) .empty
  let extra ← fields.getD "extra" (decodeMap decodeString) .empty
  let breadcrumbs ← fields.getD "breadcrumbs" (decodeList (Breadcrumb.decode reading)) []
  return ⟨eventId, timestamp, level, message, user, tags, extra, breadcrumbs⟩

end Report

/-- What a caller knows about an incident beside the report. -/
structure Hint where
  values : SortedMap CanonicalValue
deriving DecidableEq, Repr

namespace Hint

def empty : Hint := ⟨.empty⟩

/-- What a hint says, as one object. -/
def value (h : Hint) : Value := .ofMap CanonicalValue.value h.values

/-- Whether two hints say the same. -/
def agrees (a b : Hint) : Bool := a.value.agrees b.value

end Hint

end SessionTrail
