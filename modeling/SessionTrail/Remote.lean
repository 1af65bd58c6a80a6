import SessionTrail.Json.Decode
import SessionTrail.Json.Encode

/-!
# Values on the far side of a connection

A remote value is there, is known to be absent, or could not be read.
-/
namespace SessionTrail

open Json

/-- Why a remote value cannot be used. -/
inductive RemoteError where
  | empty
  | unreachable (reason : String)
deriving DecidableEq, Repr

def RemoteError.message : RemoteError → String
  | .empty => "field is empty"
  | .unreachable reason => "field unreachable: " ++ reason

/-- Whether a remote error says that there is no value. -/
def RemoteError.isEmpty : RemoteError → Bool
  | .empty => true
  | .unreachable _ => false

/-- A value that is held elsewhere. -/
inductive Remote (α : Type) where
  | set (value : α)
  | unset
  | unreachable (reason : String)
deriving DecidableEq, Repr

namespace Remote

variable {α : Type}

/-- The value, or why there is none. -/
def get : Remote α → Except RemoteError α
  | .set value => .ok value
  | .unset => .error .empty
  | .unreachable reason => .error (.unreachable reason)

def isPresent : Remote α → Bool
  | .set _ => true
  | .unset | .unreachable _ => false

/-- An optional value as a remote one that was read. -/
def ofOption : Option α → Remote α
  | some value => .set value
  | none => .unset

/-- The alternatives by name. -/
def names : List String := ["set", "unset", "unreachable"]

def encode (encodeValue : α → Value) : Remote α → Value
  | .set value => .object [("set", encodeValue value)]
  | .unset => .string "unset"
  | .unreachable reason => .object [("unreachable", .string reason)]

def decode (reading : Reading) (decodeValue : Decoder α) : Decoder (Remote α) :=
  decodeVariant reading names fun name content =>
    if name = "set" then (decodeContent decodeValue content).map .set
    else if name = "unset" then (decodeNoContent reading content).map fun _ => .unset
    else (decodeContent decodeString content).map .unreachable

end Remote

end SessionTrail
