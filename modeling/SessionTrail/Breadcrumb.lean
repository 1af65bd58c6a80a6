import SessionTrail.Timestamp.Read

/-!
# Breadcrumbs

Short notes about what happened, kept so that a later report can tell what led up to it.
-/
namespace SessionTrail

open Json

/-- How serious something is. -/
inductive Level where
  | debug
  | info
  | warning
  | error
  | fatal
deriving DecidableEq, Repr

namespace Level

instance : Inhabited Level := ⟨.info⟩

def text : Level → String
  | .debug => "debug"
  | .info => "info"
  | .warning => "warning"
  | .error => "error"
  | .fatal => "fatal"

/-- All levels, from the least serious on. -/
def all : List Level := [.debug, .info, .warning, .error, .fatal]

/-- The level with a name. -/
def ofText? (s : String) : Option Level := all.find? (·.text = s)

theorem ofText?_text (level : Level) : ofText? level.text = some level := by cases level <;> rfl

def encode (level : Level) : Value := .string level.text

def decode (reading : Reading) : Decoder Level :=
  decodeVariant reading (all.map text) fun name content => do
    decodeNoContent reading content
    return (ofText? name).getD default

end Level

/-- A note with its time and level, and named data. -/
structure Breadcrumb where
  timestamp : Timestamp
  level : Level
  message : String
  data : SortedMap String
deriving DecidableEq, Repr

namespace Breadcrumb

def shape (reading : Reading) : List Field :=
  [.required "timestamp" Timestamp.decode, .required "level" (Level.decode reading),
    .required "message" decodeString, .defaulted "data" (decodeMap decodeString)]

/-- A breadcrumb as a JSON value. Data are left out if there are none. -/
def encode (crumb : Breadcrumb) : Value :=
  .object ([("timestamp", crumb.timestamp.encode), ("level", crumb.level.encode),
    ("message", .string crumb.message)] ++ Value.memberOfMap "data" .string crumb.data)

def decode (reading : Reading) : Decoder Breadcrumb := fun d => do
  let fields ← decodeFields reading (shape reading) d
  let timestamp ← fields.get "timestamp" Timestamp.decode
  let level ← fields.get "level" (Level.decode reading)
  let message ← fields.get "message" decodeString
  let data ← fields.getD "data" (decodeMap decodeString) .empty
  return ⟨timestamp, level, message, data⟩

end Breadcrumb

end SessionTrail
